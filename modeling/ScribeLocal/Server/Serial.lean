import ScribeLocal.Server.Content

/-! # A stage on its own

The statements of a stage executed to the end with nothing in between, as when one task drives
the stages of a recording one after the other.
-/
namespace ScribeLocal

theorem Content.map_numbered (r : Uuid) (first : ℕ) (new : List NewUtterance) :
    (Content.numbered r first new).map Utterance.toNewUtterance = new := by
  unfold Content.numbered
  rw [List.map_map]
  exact List.zipIdx_map_fst ..

/-- The statements of `body` one after the other, each told the next of `heard`. -/
def execAll (now : Time) (status : Uuid → Option RecordingStatus) :
    List Heard → List Stmt → Content → Option Content
  | [], [], c => some c
  | x :: heard, st :: body, c =>
    match st.exec now status x c with
    | none => none
    | some (c', sts) => execAll now status heard (sts ++ body) c'
  | _, _, _ => none

end ScribeLocal
