import Mgx.HttpResponse
import Mgx.Lib.Paths

/-
  The file a GET request opens.

  `th_msg_process_func` opens `m_index_path` followed by the URI as it came; the
  server works in the directory `cwd`.

  What is proved: `static_file_contained_iff`. The path stays inside the directory
  `m_index_path` exactly when the URI comes back into every directory it climbs
  out of with `..`; with an index path that ends in a slash, one that never climbs
  does (`comesBack_of_ups_eq_zero`).
-/
namespace Mgx
open CMem Paths

/-- The path opened for `uri` stays inside the directory `m_index_path`. -/
def Contained (cwd : List Name) (indexPath uri : Bytes) : Prop :=
  resolve cwd indexPath <+: resolve cwd (staticFilePath indexPath uri)

/-- The URI with the index page. -/
def indexedUri (uri : Bytes) : Bytes := if uri = ascii "/" then uri ++ ascii "index.html" else uri

/-- The names of `m_index_path` that the segments of the URI climb out of are the first that they go
down again. What `m_index_path` has after its last slash runs into the URI and counts to it. -/
def ComesBack (cwd : List Name) (indexPath uri : Bytes) : Prop :=
  let q := net (segs (lastPart indexPath ++ indexedUri uri))
  (resolve cwd indexPath).drop ((base cwd indexPath (indexedUri uri)).length - q.ups) <+: q.names

instance (cwd : List Name) (indexPath uri : Bytes) : Decidable (ComesBack cwd indexPath uri) :=
  inferInstanceAs (Decidable (_ <+: _))

theorem staticFilePath_eq (indexPath uri : Bytes) :
    staticFilePath indexPath uri = indexPath ++ indexedUri uri := by
  unfold staticFilePath indexedUri
  split
  · exact List.append_assoc ..
  · rfl

/-- With an index path that ends in a slash only the segments of the URI count. -/
theorem comesBack_slash (cwd : List Name) (a uri : Bytes) :
    ComesBack cwd (a ++ [slash]) uri ↔
      (resolve cwd (a ++ [slash])).drop
          ((resolve cwd (a ++ [slash])).length - (net (segs (indexedUri uri))).ups) <+:
        (net (segs (indexedUri uri))).names := by
  obtain ⟨hbase, hlast⟩ := base_of_slash cwd a (indexedUri uri)
  simp only [ComesBack, hbase, hlast, List.nil_append]

/-- A URI that never climbs stays. -/
theorem comesBack_of_ups_eq_zero (cwd : List Name) (a uri : Bytes)
    (h : (net (segs (indexedUri uri))).ups = 0) : ComesBack cwd (a ++ [slash]) uri := by
  rw [comesBack_slash, h, Nat.sub_zero, List.drop_length]
  exact List.nil_prefix

/-- **When a static file is contained.** Wherever the server works and whatever its index path, the
path opened for a URI stays inside the index path exactly when the URI comes back into every
directory it climbs out of. -/
theorem static_file_contained_iff (cwd : List Name) (indexPath : Bytes) (uri : CStr) :
    Contained cwd indexPath uri.1 ↔ ComesBack cwd indexPath uri.1 := by
  rw [Contained, staticFilePath_eq]
  exact resolve_append_prefix_iff cwd indexPath (indexedUri uri.1)

/-- The shipped index path and a URI that climbs out of it. -/
theorem static_file_not_contained :
    ∃ uri, httpParseRequestLine (ascii "GET /../../mgx.conf HTTP/1.1") = some (some (.get, uri)) ∧
      ¬ Contained [ascii "srv"] (ascii "./http/html/") uri.1 := by
  refine ⟨⟨ascii "/../../mgx.conf", by decide⟩, by decide, ?_⟩
  unfold Contained
  decide

end Mgx
