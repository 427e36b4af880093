import Cythonizer.Path.Basic

/-!
Names that are no text. A name is a sequence of bytes and need not be UTF-8. What is ill-formed in
it stands in its text as stray characters, each for as many bytes as are shown as one replacement
character.
-/

namespace Cythonizer.Path.Basic

/-- The characters that stand for what is ill-formed in names. -/
class Encoding where
  isStray : Char → Bool

/-- All names are texts. -/
instance (priority := low) textual : Encoding := ⟨fun _ => false⟩

section

variable [Encoding]

def isProper (name : String) : Bool :=
  name.toList.all fun c => !Encoding.isStray c

/-- A name as it is shown. -/
def shown (name : String) : String :=
  String.ofList (name.toList.map fun c => if Encoding.isStray c then '\uFFFD' else c)

theorem shown_eq {name : String} (h : isProper name = true) : shown name = name := by
  rw [isProper, List.all_eq_true] at h
  have hsame :
    name.toList.map (fun c => if Encoding.isStray c then '\uFFFD' else c) = name.toList :=
    List.map_congr_left (fun c hc => if_neg (by simpa using h c hc)) |>.trans (List.map_id _)
  rw [shown, hsame, String.ofList_toList]

end

@[simp] theorem isProper_textual (name : String) : isProper name = true := by
  simp [isProper, Encoding.isStray]

end Cythonizer.Path.Basic

namespace Cythonizer

open Cythonizer.Path.Basic

section

variable [Encoding]

def Path.isProper (path : Path) : Bool :=
  Basic.isProper path.text

def Path.shown (path : Path) : String :=
  Basic.shown path.text

theorem Path.shown_eq {path : Path} (h : path.isProper = true) : path.shown = path.text :=
  Basic.shown_eq h

end

@[simp] theorem Path.isProper_textual (path : Path) : path.isProper = true :=
  Basic.isProper_textual path.text

@[simp] theorem Path.shown_textual (path : Path) : path.shown = path.text :=
  path.shown_eq path.isProper_textual

end Cythonizer
