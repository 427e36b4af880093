import Cythonizer.Source.Trees

namespace Cythonizer.Proofs.Source.Events

open Cythonizer.Source.Trees

mutual

/-- The events that write a tree, oldest first. -/
def eventsOf : Tree → List Event
  | .gap g text => [.gap g text]
  | .leaf l text => [.leaf l text]
  | .node kind children => .opening kind :: (eventsOfAll children ++ [.closing])

def eventsOfAll : List Tree → List Event
  | [] => []
  | t :: ts => eventsOf t ++ eventsOfAll ts

end

theorem eventsOfAll_append (a b : List Tree) :
    eventsOfAll (a ++ b) = eventsOfAll a ++ eventsOfAll b := by
  induction a with
  | nil => rfl
  | cons t ts ih => simp [eventsOfAll, ih]

mutual

theorem assemble_eventsOf (opened : List Opened) (done : List Tree) (t : Tree)
    (es : List Event) :
    assemble opened done (eventsOf t ++ es) = assemble opened (t :: done) es := by
  cases t with
  | gap g text => rfl
  | leaf l text => rfl
  | node kind children =>
      calc
        assemble opened done (eventsOf (.node kind children) ++ es) =
            assemble ((kind, done) :: opened) [] (eventsOfAll children ++ (.closing :: es)) := by
          simp [eventsOf, assemble]
        _ = assemble opened (.node kind children :: done) es := by
          rw [assemble_eventsOfAll]
          simp [assemble]

theorem assemble_eventsOfAll (opened : List Opened) (done ts : List Tree) (es : List Event) :
    assemble opened done (eventsOfAll ts ++ es) = assemble opened (ts.reverse ++ done) es := by
  cases ts with
  | nil => rfl
  | cons t ts =>
      rw [eventsOfAll, List.append_assoc, assemble_eventsOf, assemble_eventsOfAll]
      simp

end

theorem ofEvents_eventsOfAll (ts : List Tree) : ofEvents (eventsOfAll ts) = ts := by
  have h := assemble_eventsOfAll [] [] ts []
  simpa [ofEvents, assemble, closeAll] using h

end Cythonizer.Proofs.Source.Events
