import Cythonizer.Path.Basic

namespace Cythonizer.Proofs.Path.Names

open Cythonizer.Path.Basic
open Cythonizer.Text.Pieces

theorem pieces_of_not_mem {separator : Char} {text : List Char} (h : separator ∉ text) :
    pieces separator text = [text] := by
  induction text with
  | nil => rfl
  | cons c rest ih =>
      rw [List.mem_cons, not_or] at h
      rw [pieces, if_neg (Ne.symm h.1), ih h.2]

theorem pieces_append (separator : Char) (a b : List Char) :
    pieces separator (a ++ separator :: b) = pieces separator a ++ pieces separator b := by
  induction a with
  | nil => simp [pieces]
  | cons c rest ih =>
      rw [List.cons_append, pieces, pieces]
      split
      · rw [ih, List.cons_append]
      · rw [ih]
        cases h : pieces separator rest with
        | nil => exact absurd h (pieces_ne_nil separator rest)
        | cons piece more => rfl

/-- A text that ends with its last slash. -/
def Closed (text : List Char) : Prop :=
  text = [] ∨ ∃ front, text = front ++ ['/']

/-- The pieces of a text that ends with its last slash. -/
def above (text : List Char) : List (List Char) :=
  (pieces '/' text).dropLast

theorem pieces_of_closed {front name : List Char} (hfront : Closed front) (hname : '/' ∉ name) :
    pieces '/' (front ++ name) = above front ++ [name] := by
  rcases hfront with rfl | ⟨b, rfl⟩
  · rw [List.nil_append, pieces_of_not_mem hname]
    rfl
  · have hb : pieces '/' (b ++ ['/']) = pieces '/' b ++ [[]] := pieces_append '/' b []
    rw [List.append_assoc, List.singleton_append, pieces_append, pieces_of_not_mem hname, above, hb,
      List.dropLast_concat]

/-- The text of a path up to its last slash, and the text behind it. -/
structure Ends (path : Path) (front name : List Char) : Prop where
  chars : path.chars = front ++ name
  closed : Closed front
  noSlash : '/' ∉ name

theorem exists_ends (path : Path) : ∃ front name, Ends path front name := by
  suffices h : ∀ text : List Char, ∃ front name, text = front ++ name ∧ Closed front ∧ '/' ∉ name by
    obtain ⟨front, name, hchars, hclosed, hname⟩ := h path.chars
    exact ⟨front, name, hchars, hclosed, hname⟩
  intro text
  induction text with
  | nil => exact ⟨[], [], rfl, .inl rfl, by simp⟩
  | cons c rest ih =>
      obtain ⟨front, name, rfl, hfront | ⟨b, rfl⟩, hname⟩ := ih
      · subst hfront
        by_cases hc : c = '/'
        · exact ⟨['/'], name, by simp [hc], .inr ⟨[], rfl⟩, hname⟩
        · exact ⟨[], c :: name, rfl, .inl rfl, by simp [hname, Ne.symm hc]⟩
      · exact ⟨c :: b ++ ['/'], name, by simp, .inr ⟨c :: b, rfl⟩, hname⟩

theorem Ends.pieces {path : Path} {front name : List Char} (h : Ends path front name) :
    pieces '/' path.chars = above front ++ [name] := by
  rw [h.chars, pieces_of_closed h.closed h.noSlash]

/-- A text between slashes that names something in a directory. -/
structure IsProper (name : List Char) : Prop where
  filled : name ≠ []
  notCurrent : name ≠ ['.']
  notParent : name ≠ ['.', '.']

theorem isIdle_eq_false {name : List Char} (h : IsProper name) : isIdle name = false := by
  simp [isIdle, h.filled, h.notCurrent]

theorem anchor_of_name {name : List Char} (hname : '/' ∉ name) (hcurrent : name ≠ ['.']) :
    anchor name = none := by
  unfold anchor
  split
  · simp at hname
  · exact absurd rfl hcurrent
  · simp at hname
  · rfl

theorem anchor_append {front : List Char} (name : List Char) (hclosed : Closed front)
    (hfront : front ≠ []) : anchor (front ++ name) = anchor front := by
  obtain ⟨b, rfl⟩ := hclosed.resolve_left hfront
  rcases b with _ | ⟨c, _ | ⟨d, b⟩⟩
  · rfl
  · by_cases hc : c = '.' <;> by_cases hc' : c = '/' <;> simp_all [anchor]
  · by_cases hc : c = '.' <;> by_cases hc' : c = '/' <;> by_cases hd : d = '/' <;> simp_all [anchor]

theorem body_append {front name : List Char} (hclosed : Closed front) (hname : '/' ∉ name)
    (hcurrent : name ≠ ['.']) :
    ∃ middle, Closed middle ∧ anchorText (front ++ name) ++ middle = front ∧
      body (front ++ name) = middle ++ name := by
  by_cases hfront : front = []
  · subst hfront
    refine ⟨[], .inl rfl, ?_, ?_⟩
    · simp [anchorText, anchor_of_name hname hcurrent]
    · simp [body, anchor_of_name hname hcurrent]
  · obtain ⟨c, rest, rfl⟩ := List.exists_cons_of_ne_nil hfront
    have hrest : Closed rest := by
      rcases hclosed with h | ⟨b, h⟩
      · cases h
      · rcases b with _ | ⟨d, b⟩
        · exact .inl (by simpa using congrArg List.tail h)
        · exact .inr ⟨b, by simpa using congrArg List.tail h⟩
    unfold anchorText body
    rw [anchor_append name hclosed hfront]
    by_cases hanchor : (anchor (c :: rest)).isSome
    · exact ⟨rest, hrest, by simp [hanchor], by simp [hanchor]⟩
    · exact ⟨c :: rest, hclosed, by simp [hanchor], by simp [hanchor]⟩

section

variable {path : Path} {front name : List Char}

theorem Ends.last_component (h : Ends path front name) (hfilled : name ≠ [])
    (hcurrent : name ≠ ['.']) : path.components.getLast? = some (Component.ofPiece name) := by
  obtain ⟨middle, hmiddle, -, hbody⟩ := body_append h.closed h.noSlash hcurrent
  have hidle : isIdle name = false := by simp [isIdle, hfilled, hcurrent]
  rw [Path.components, bodyComponents, h.chars, hbody, pieces_of_closed hmiddle h.noSlash]
  simp [hidle]

theorem Ends.fileName (h : Ends path front name) (hname : IsProper name) :
    path.fileName? = some (String.ofList name) := by
  rw [Path.fileName?, h.last_component hname.filled hname.notCurrent, Component.ofPiece,
    if_neg hname.notParent]

theorem dropIdleEnd_append {pieces : List (List Char)} {piece : List Char}
    (h : isIdle piece = false) :
    dropIdleEnd (pieces ++ [piece]) = pieces ++ [piece] := by
  simp [dropIdleEnd, h]

theorem Ends.upToName (h : Ends path front name) (hname : IsProper name) :
    upToName path.chars = path.chars := by
  obtain ⟨middle, hmiddle, -, hbody⟩ := body_append h.closed h.noSlash hname.notCurrent
  rw [Path.Basic.upToName, h.chars, hbody, pieces_of_closed hmiddle h.noSlash,
    dropIdleEnd_append (isIdle_eq_false hname), ← pieces_of_closed hmiddle h.noSlash, spread_pieces,
    ← hbody, anchorText_append_body]

end

theorem takeWhile_reverse_append (name : List Char) :
    ∃ before, name = before ++ (name.reverse.takeWhile (· != '.')).reverse ∧
      (before = [] ∨ ∃ stem, before = stem ++ ['.']) := by
  refine ⟨(name.reverse.dropWhile (· != '.')).reverse, ?_, ?_⟩
  · rw [← List.reverse_append, List.takeWhile_append_dropWhile, List.reverse_reverse]
  · cases h : name.reverse.dropWhile (· != '.') with
    | nil => exact .inl rfl
    | cons c rest =>
        have hc : (c != '.') = false := by
          have hne : name.reverse.dropWhile (· != '.') ≠ [] := by simp [h]
          simpa [h] using List.head_dropWhile_not (· != '.') hne
        rw [bne_eq_false_iff_eq] at hc
        exact .inr ⟨rest.reverse, by simp [hc]⟩

theorem eq_of_cutAtDot {name stem extension : List Char}
    (h : cutAtDot name = (stem, some extension)) :
    name = stem ++ '.' :: extension ∧ stem ≠ [] := by
  obtain ⟨before, hname, hbefore⟩ := takeWhile_reverse_append name
  unfold cutAtDot at h
  dsimp only at h
  generalize (name.reverse.takeWhile (· != '.')).reverse = found at h hname
  split at h
  · cases h
  · rename_i hcut
    simp only [Prod.mk.injEq, Option.some.injEq] at h
    obtain ⟨hstem, rfl⟩ := h
    rw [Bool.or_eq_true, not_or] at hcut
    rcases hbefore with rfl | ⟨front, rfl⟩
    · rw [List.nil_append] at hname
      exact absurd (by simp [hname]) hcut.1
    · have htake : name.take (name.length - found.length - 1) = front := by
        rw [hname]
        simp only [List.append_assoc, List.length_append, List.length_singleton]
        rw [show front.length + (1 + found.length) - found.length - 1 = front.length by omega,
          List.take_left]
      rw [htake] at hstem hcut
      subst hstem
      exact ⟨by simpa using hname, by simpa using hcut.2⟩

theorem cutAtDot_append (stem : List Char) {extension : List Char} (hstem : stem ≠ [])
    (hextension : '.' ∉ extension) :
    cutAtDot (stem ++ '.' :: extension) = (stem, some extension) := by
  have hfound : ((stem ++ '.' :: extension).reverse.takeWhile (· != '.')).reverse = extension := by
    have hall : ∀ c ∈ extension.reverse, (c != '.') = true := by
      intro c hc
      rw [bne_iff_ne]
      rintro rfl
      exact hextension (List.mem_reverse.mp hc)
    rw [List.reverse_append, List.reverse_cons, List.append_assoc,
      List.takeWhile_append_of_pos hall]
    simp
  unfold cutAtDot
  dsimp only
  rw [hfound]
  have htake : (stem ++ '.' :: extension).take
      ((stem ++ '.' :: extension).length - extension.length - 1) = stem := by
    rw [List.length_append, List.length_cons,
      show stem.length + (extension.length + 1) - extension.length - 1 = stem.length by omega,
      List.take_left]
  have hlonger : extension.length ≠ stem.length + (extension.length + 1) := by omega
  rw [htake, if_neg (by simp [hlonger, hstem])]

section

variable {path : Path} {front name stem old : List Char}

theorem Ends.extension (h : Ends path front name) (hname : IsProper name)
    (hcut : cutAtDot name = (stem, some old)) : path.extension? = some (String.ofList old) := by
  rw [Path.extension?, h.fileName hname]
  simp [hcut]

theorem Ends.extend (h : Ends path front (stem ++ ['.'])) (hstem : stem ≠ [])
    (hparent : stem ≠ ['.']) (extension : String) :
    (path.extend extension).chars = front ++ (stem ++ '.' :: extension.toList) := by
  have hproper : IsProper (stem ++ ['.']) :=
    { filled := by simp
      notCurrent := by simpa using hstem
      notParent := fun hname => hparent
        (List.append_cancel_right (show stem ++ ['.'] = ['.'] ++ ['.'] from hname)) }
  rw [Cythonizer.Path.extend, h.fileName hproper]
  dsimp only
  rw [String.toList_ofList, cutAtDot_append stem hstem (by simp), h.upToName hproper, h.chars,
    Path.ofChars, Path.chars, String.toList_ofList]
  have hlength : (front ++ (stem ++ ['.'])).length - (stem ++ ['.']).length + stem.length =
      (front ++ stem).length := by
    simp only [List.length_append]
    omega
  rw [hlength, ← List.append_assoc, List.take_left, List.append_assoc]

theorem Ends.withExtension (h : Ends path front name) (hname : IsProper name)
    (hcut : cutAtDot name = (stem, some old)) (extension : String) :
    (path.withExtension extension).chars =
      front ++ (if stem = ['.'] then ['.', '.'] else stem ++ '.' :: extension.toList) := by
  obtain ⟨rfl, hstem⟩ := eq_of_cutAtDot hcut
  rw [Path.withExtension, h.extension hname hcut]
  dsimp only
  have hkept : path.chars.take (path.chars.length - (String.ofList old).toList.length) =
      front ++ (stem ++ ['.']) := by
    rw [String.toList_ofList, h.chars]
    have hlength : (front ++ (stem ++ '.' :: old)).length - old.length =
        (front ++ (stem ++ ['.'])).length := by
      simp only [List.length_append, List.length_cons, List.length_nil]
      omega
    rw [hlength, show front ++ (stem ++ '.' :: old) = front ++ (stem ++ ['.']) ++ old by simp,
      List.take_left]
  rw [hkept]
  have hends : Ends (.ofChars (front ++ (stem ++ ['.']))) front (stem ++ ['.']) :=
    ⟨by simp [Path.ofChars, Path.chars], h.closed, fun hmem => h.noSlash (by
      rcases List.mem_append.mp hmem with hmem | hmem
      · exact List.mem_append_left _ hmem
      · simp at hmem)⟩
  by_cases hdot : stem = ['.']
  · subst hdot
    have hlast := hends.last_component (by simp) (by simp)
    have hnone : (Path.ofChars (front ++ (['.'] ++ ['.']))).fileName? = none := by
      rw [Path.fileName?, hlast]
      rfl
    rw [if_pos rfl, Cythonizer.Path.extend, hnone, hends.chars]
    rfl
  · rw [if_neg hdot, hends.extend hstem hdot]

end

end Cythonizer.Proofs.Path.Names
