import Cythonizer.Proofs.Packaging.Artifacts

namespace Cythonizer.Proofs.Packaging.Spellings

open Cythonizer.FileTree.Access
open Cythonizer.FileTree.Basic
open Cythonizer.FileTree.Resolution
open Cythonizer.Packaging.Artifact
open Cythonizer.Path.Basic
open Cythonizer.Text.Pieces
open Cythonizer.Proofs.FileTree.Destinations
open Cythonizer.Proofs.FileTree.Frames
open Cythonizer.Proofs.Packaging.Artifacts
open Cythonizer.Proofs.Path.Joining
open Cythonizer.Proofs.Path.Names
open Cythonizer.Proofs.Path.Relative
open Cythonizer.Proofs.Project.Walk

variable {tree : FileTree} {here location : Location} {path other written : Path} {name : String}
  {links : Nat} {piece : List Char}

/-- The pieces of a way that are not idle. -/
def named (way : List (List Char)) : List (List Char) :=
  way.filter fun piece => !isIdle piece

@[simp] theorem named_nil : named [] = [] :=
  rfl

@[simp] theorem named_append (a b : List (List Char)) : named (a ++ b) = named a ++ named b :=
  List.filter_append a b

@[simp] theorem named_named (way : List (List Char)) : named (named way) = named way := by
  simp [named]

theorem named_idle (rest : List (List Char)) (h : isIdle piece = true) :
    named (piece :: rest) = named rest :=
  List.filter_cons_of_neg (by simp [h])

theorem named_cons (rest : List (List Char)) (h : isIdle piece = false) :
    named (piece :: rest) = piece :: named rest :=
  List.filter_cons_of_pos (by simp [h])

section

variable (links) (rest : List (List Char))

theorem travel_idle (h : isIdle piece = true) :
    travel tree true links here (piece :: rest) = travel tree true links here rest := by
  rw [travel, descend_idle rest h, ← travel]

theorem travel_parent :
    travel tree true links here (['.', '.'] :: rest) = travel tree true links here.tail rest := by
  rw [travel, descend_parent, ← travel]

/-- A name leads on through a directory, and through a link as long as there are any left. -/
theorem travel_name (h : IsProper piece) :
    travel tree true links here (piece :: rest) =
      if nameLimit < (String.ofList piece).utf8ByteSize then .error .nameTooLong
      else
        match tree.node? (String.ofList piece :: here) with
        | none =>
          if rest.all List.isEmpty then .ok (.free here (String.ofList piece) !rest.isEmpty)
          else .error .noEntry
        | some .directory => travel tree true links (String.ofList piece :: here) rest
        | some (.link target) =>
          match links with
          | 0 => .error .tooManyLinks
          | left + 1 =>
            travel tree true left (startOf here target) (pieces '/' target.chars ++ rest)
        | some (.file content mode) =>
          if rest.isEmpty then .ok (.found (String.ofList piece :: here) (.file content mode))
          else .error .notDirectory := by
  rw [travel, descend_name rest h]
  by_cases hlong : nameLimit < (String.ofList piece).utf8ByteSize
  · rw [if_pos hlong, if_pos hlong]
  · rw [if_neg hlong, if_neg hlong]
    cases tree.node? (String.ofList piece :: here) with
    | none => cases hall :
      rest.all List.isEmpty <;> simp only [if_true, Bool.false_eq_true, if_false]
    | some node =>
        cases node with
        | file content mode =>
            cases hempty : rest.isEmpty <;> simp only [if_true, Bool.false_eq_true, if_false]
        | directory => exact (travel.eq_def ..).symm
        | link target =>
            cases links <;> simp only [Bool.not_true, Bool.and_false, Bool.false_eq_true, if_false]

end

theorem travel_named (way : List (List Char)) {last : List Char} (hlast : last ≠ []) :
    travel tree true links here (way ++ [last]) = travel tree true links here
      (named way ++ [last]) := by
  induction links using Nat.strong_induction_on generalizing here way with
  | _ links ihLinks =>
      induction way generalizing here with
      | nil => rfl
      | cons piece rest ih =>
          rcases piece_cases piece with hidle | rfl | hname
          · rw [List.cons_append, travel_idle _ _ hidle, named_idle _ hidle, ih]
          · rw [named_cons _ (by decide), List.cons_append, List.cons_append, travel_parent,
              travel_parent, ih]
          · rw [named_cons _ (isIdle_eq_false hname), List.cons_append, List.cons_append,
              travel_name _ _ hname, travel_name _ _ hname, ih]
            have hall : ∀ front : List (List Char), (front ++ [last]).all List.isEmpty = false := by
              simp [hlast]
            have hempty : ∀ front : List (List Char), (front ++ [last]).isEmpty = false := by simp
            simp only [hall, hempty]
            congr 2
            funext target
            cases links with
            | zero => rfl
            | succ left =>
                dsimp only
                rw [← List.append_assoc, ← List.append_assoc, ihLinks left (Nat.lt_succ_self left),
                  ihLinks left (Nat.lt_succ_self left) (_ ++ named rest)]
                simp

theorem exists_front {front : List (List Char)} (back : List (List Char))
    (h : travel tree true links here (front ++ back) = .ok (.found location .directory)) :
    ∃ between, travel tree true links here front = .ok (.found between .directory) := by
  induction links using Nat.strong_induction_on generalizing here front with
  | _ links ihLinks =>
      induction front generalizing here with
      | nil => exact ⟨here, by rw [travel, descend]⟩
      | cons piece rest ih =>
          rw [List.cons_append] at h
          rcases piece_cases piece with hidle | rfl | hname
          · rw [travel_idle _ _ hidle] at h ⊢
            exact ih h
          · rw [travel_parent] at h ⊢
            exact ih h
          · rw [travel_name _ _ hname] at h ⊢
            split at h
            · cases h
            · rename_i hshort
              rw [if_neg hshort]
              split at h
              · split at h <;> cases h
              · exact ih h
              · split at h
                · cases h
                · rw [← List.append_assoc] at h
                  exact ihLinks _ (Nat.lt_succ_self _) h
              · split at h <;> cases h

theorem travel_idle_end (way : List (List Char)) :
    travel tree true links here (way ++ [['.']]) = .ok (.found location .directory) ↔
      travel tree true links here way = .ok (.found location .directory) := by
  have hclosed : ∀ {place : Location}, travel tree true links here way =
    .ok (.found place .directory) →
      travel tree true links here (way ++ [['.']]) = .ok (.found place .directory) := by
    intro place h
    obtain ⟨left, hleft⟩ := travel_append [] (by simp) (by rwa [List.append_nil])
    rw [hleft true [['.']] (by simp), travel_idle _ _ (by decide), travel, descend]
  refine ⟨fun h => ?_, hclosed⟩
  obtain ⟨between, hbetween⟩ := exists_front _ h
  rw [hclosed hbetween] at h
  cases h
  exact hbetween

theorem travel_directory_iff (way : List (List Char)) :
    travel tree true links here way = .ok (.found location .directory) ↔
      travel tree true links here (named way) = .ok (.found location .directory) := by
  rw [← travel_idle_end way, travel_named way (by simp), travel_idle_end]

theorem named_pieces_of_same (h : path.same ⟨"."⟩ = true) :
    named (pieces '/' path.chars) = [] ∧ path.isAbsolute = false := by
  have hcomponents : path.components = [.current] := by
    rw [Path.same, beq_iff_eq] at h
    rw [h]
    decide
  suffices h : componentsOf (pieces '/' path.chars) = [] ∧ path.isAbsolute = false from
    ⟨by simpa [componentsOf, named] using h.1, h.2⟩
  have hnone : ∀ way, Component.current ∉ componentsOf way := by
    intro way hmem
    obtain ⟨piece, -, hpiece⟩ := List.mem_map.mp hmem
    unfold Component.ofPiece at hpiece
    split at hpiece <;> cases hpiece
  rcases components_cases path with h' | ⟨hrelative, h'⟩
  · rw [hcomponents] at h'
    split at h'
    · cases h'
    · exact absurd (by rw [← List.nil_append (componentsOf _), ← h']; simp)
        (hnone (pieces '/' path.chars))
  · rw [hcomponents, List.cons.injEq] at h'
    exact ⟨h'.2.symm, hrelative⟩

theorem isAbsolute_join (h : other.isAbsolute = false) :
    (path.join other).isAbsolute = path.isAbsolute := by
  have hstart : startOf [""] (path.join other) = startOf [""] path := startOf_join h
  unfold startOf at hstart
  cases hjoin : (path.join other).isAbsolute <;> cases hpath : path.isAbsolute <;> simp_all

theorem exists_pieces_inside (path : Path) (h : '/' ∉ name.toList) :
    ∃ front, pieces '/' (inside path name).chars = front ++ [name.toList] ∧
      named front = named (pieces '/' path.chars) ∧
        (inside path name).isAbsolute = path.isAbsolute := by
  have hpieces : pieces '/' (Path.chars ⟨name⟩) = [name.toList] := pieces_of_not_mem h
  unfold inside
  split
  · rename_i hsame
    obtain ⟨hnamed, hrelative⟩ := named_pieces_of_same hsame
    exact ⟨[], hpieces, hnamed.symm, by rw [isAbsolute_name h, hrelative]⟩
  · rw [isAbsolute_join (isAbsolute_name h)]
    rcases chars_join path (isAbsolute_name h) with
      ⟨hempty, hjoined⟩ | ⟨front, idle, -, hpath, hidle, hjoined⟩
    · exact ⟨[], by rw [hjoined, hpieces, List.nil_append], by simp [hempty, pieces, named, isIdle],
        rfl⟩
    · refine ⟨pieces '/' front, by rw [hjoined, pieces_append, hpieces], ?_, rfl⟩
      rcases hidle with rfl | rfl
      · rw [hpath, List.append_nil]
      · rw [hpath, pieces_append, named_append]
        simp [pieces, named, isIdle]

theorem named_pieces_inside (path : Path) (h : '/' ∉ piece) :
    named (pieces '/' (inside path (String.ofList piece)).chars) =
      named (pieces '/' path.chars ++ [piece]) := by
  obtain ⟨front, hpieces, hfront, -⟩ := @exists_pieces_inside (String.ofList piece) path
    (by simpa using h)
  rw [hpieces, named_append, named_append, hfront, String.toList_ofList]

theorem noNul_inside (hpath : '\x00' ∉ path.chars) (hname : '\x00' ∉ name.toList)
    (hslash : '/' ∉ name.toList) :
    '\x00' ∉ (inside path name).chars := by
  unfold inside
  split
  · exact hname
  · rcases chars_join path (isAbsolute_name hslash) with
      ⟨-, hjoined⟩ | ⟨front, idle, -, hchars, -, hjoined⟩
    · rw [hjoined]
      exact hname
    · rw [hjoined]
      rw [hchars, List.mem_append, not_or] at hpath
      simpa [hpath.1, Path.chars] using hname

theorem text_inside (htext : path.text ≠ "") (h : piece = [] → path.same ⟨"."⟩ = false)
    (hslash : '/' ∉ piece) : (inside path (String.ofList piece)).text ≠ "" := by
  intro hempty
  have hname : '/' ∉ (String.ofList piece).toList := by simpa using hslash
  have hchars : (inside path (String.ofList piece)).chars = [] :=
    String.toList_eq_nil_iff.mpr hempty
  unfold inside at hchars
  split at hchars
  · rename_i hsame
    have hpiece : piece = [] := by simpa [Path.chars] using hchars
    rw [h hpiece] at hsame
    cases hsame
  · rcases chars_join path (isAbsolute_name hname) with ⟨hnone, -⟩ | ⟨_, _, _, _, _, hjoined⟩
    · exact htext (String.toList_eq_nil_iff.mp hnone)
    · rw [hjoined] at hchars
      simp at hchars

theorem find_directory_iff :
    find tree here path = .ok (location, .directory) ↔
      path.text ≠ "" ∧ '\x00' ∉ path.chars ∧
        travel tree true linkLimit (startOf here path) (named (pieces '/' path.chars)) =
          .ok (.found location .directory) := by
  rw [find_iff_resolve, resolve_iff_travel, travel_directory_iff]

/-- The start of a path that is spelled piece by piece: the current directory, with no empty piece
behind it, or something that is not spelled like the current directory. -/
def CanGoOn (path : Path) (way : List (List Char)) : Prop :=
  (path = ⟨"."⟩ ∧ (way.dropWhile (· == ['.'])).head? ≠ some []) ∨
    path.isAbsolute = true ∨ named (pieces '/' path.chars) ≠ []

theorem not_same_of_goesOn (h : path.isAbsolute = true ∨ named (pieces '/' path.chars) ≠ []) :
    path.same ⟨"."⟩ = false := by
  rw [← Bool.not_eq_true]
  intro hsame
  obtain ⟨hnamed, hrelative⟩ := named_pieces_of_same hsame
  rcases h with habsolute | hfilled
  · rw [hrelative] at habsolute
    cases habsolute
  · exact hfilled hnamed

theorem CanGoOn.step {way : List (List Char)} (h : CanGoOn path (piece :: way))
    (hslash : '/' ∉ piece) :
    (piece = [] → path.same ⟨"."⟩ = false) ∧ CanGoOn (inside path (String.ofList piece)) way := by
  rcases h with ⟨rfl, hfirst⟩ | hother
  · have hinside : inside ⟨"."⟩ (String.ofList piece) = ⟨String.ofList piece⟩ := if_pos (by decide)
    rw [hinside]
    by_cases hcurrent : piece = ['.']
    · subst hcurrent
      exact ⟨by simp, .inl ⟨rfl, by simpa using hfirst⟩⟩
    · have hfilled : piece ≠ [] := by
        rintro rfl
        simp at hfirst
      refine ⟨fun hempty => absurd hempty hfilled, .inr (.inr ?_)⟩
      rw [show pieces '/' (Path.chars ⟨String.ofList piece⟩) = [piece] by
        simpa [Path.chars] using pieces_of_not_mem hslash,
          named_cons _ (by simp [isIdle, hfilled, hcurrent])]
      simp
  · refine ⟨fun _ => not_same_of_goesOn hother, .inr ?_⟩
    obtain ⟨-, -, -, habsolute⟩ := @exists_pieces_inside (String.ofList piece) path
      (by simpa using hslash)
    rw [named_pieces_inside path hslash, named_append, habsolute]
    exact hother.imp_right fun hfilled hempty => hfilled (List.append_eq_nil_iff.mp hempty).1

/-- A way to a directory that is there can be spelled piece by piece. -/
theorem exists_respell {way : List (List Char)} (hgo : CanGoOn path way) (htext : path.text ≠ "")
    (hnul : '\x00' ∉ path.chars) (hway : ∀ piece ∈ way, '/' ∉ piece ∧ '\x00' ∉ piece)
    (h : travel tree true linkLimit (startOf here path) (named (pieces '/' path.chars ++ way)) =
      .ok (.found location .directory)) :
    ∃ directory, respell tree here path way = some directory ∧ '\x00' ∉ directory.chars ∧
      directory.isAbsolute = path.isAbsolute ∧
      named (pieces '/' directory.chars) = named (pieces '/' path.chars ++ way) ∧
      find tree here directory = .ok (location, .directory) := by
  induction way generalizing path with
  | nil =>
      rw [List.append_nil] at h ⊢
      exact ⟨path, rfl, hnul, rfl, rfl, find_directory_iff.mpr ⟨htext, hnul, h⟩⟩
  | cons piece rest ih =>
      obtain ⟨⟨hslash, hclean⟩, hrest⟩ := List.forall_mem_cons.mp hway
      obtain ⟨hempty, hnext⟩ := hgo.step hslash
      have hname : '/' ∉ (String.ofList piece).toList := by simpa using hslash
      have hfilled := text_inside htext hempty hslash
      have hcut := noNul_inside hnul (by simpa using hclean) hname
      obtain ⟨-, -, -, habsolute⟩ := exists_pieces_inside path hname
      have hstart : startOf here (inside path (String.ofList piece)) = startOf here path := by
        rw [startOf, startOf, habsolute]
      have hnamed : named (pieces '/' path.chars ++ piece :: rest) =
          named (pieces '/' (inside path (String.ofList piece)).chars ++ rest) := by
        rw [named_append _ rest, named_pieces_inside path hslash, ← named_append, List.append_assoc,
          List.singleton_append]
      have hthere : isThere tree here path piece = true := by
        unfold isThere
        split
        · rw [named_append] at h
          obtain ⟨between, hbetween⟩ := exists_front _ h
          rw [isDirectory, find_directory_iff.mpr ⟨htext, hnul, hbetween⟩]
        · rw [hnamed, ← hstart, named_append] at h
          obtain ⟨between, hbetween⟩ := exists_front _ h
          rw [holds, find_directory_iff.mpr ⟨hfilled, hcut, hbetween⟩]
          rfl
      rw [hnamed, ← hstart] at h
      obtain ⟨directory, hspelled, hclean', habsolute', hnamed', hfind⟩ :=
        ih hnext hfilled hcut hrest h
      exact ⟨directory, by rw [respell_cons, if_pos hthere, hspelled], hclean',
        habsolute'.trans habsolute,
        hnamed'.trans hnamed.symm, hfind⟩

/-- A directory that is not written with an empty piece right behind the current directory, as in
`.//p`. -/
def IsPlainlyWritten (written : Path) : Prop :=
  written.isAbsolute = true ∨ ((pieces '/' written.chars).dropWhile (· == ['.'])).head? ≠ some []

/-- Another spelling of a directory, under which the same is found. -/
structure SpellsSame (tree : FileTree) (here : Location) (directory written : Path) : Prop where
  find_eq : find tree here directory = find tree here written
  inside_eq {name : String} (hname : IsName name) :
    find tree here (inside directory name) = find tree here (inside written name)

/-- What a name in a directory leads to does not depend on the spelling of the directory. -/
theorem find_inside_eq (hname : IsName name) (hpath : '\x00' ∉ path.chars)
    (hother : '\x00' ∉ other.chars)
    (habsolute : path.isAbsolute = other.isAbsolute)
    (hnamed : named (pieces '/' path.chars) = named (pieces '/' other.chars)) :
    find tree here (inside path name) = find tree here (inside other name) := by
  have hresolve : ∀ {p : Path}, '\x00' ∉ p.chars → resolve tree here (inside p name) true =
      travel tree true linkLimit (startOf here p)
        (named (pieces '/' p.chars) ++ [name.toList]) := by
    intro p hp
    obtain ⟨front, hpieces, hfront, hstart⟩ := exists_pieces_inside p hname.noSlash
    rw [resolve, if_neg (by simpa using text_inside_ne p hname),
      if_neg (by simpa using noNul_inside hp hname.noNul hname.noSlash), hpieces,
      travel_named front hname.proper.filled, hfront, startOf, hstart, ← startOf]
  rw [find, find, hresolve hpath, hresolve hother, hnamed, startOf, startOf, habsolute]

theorem canGoOn_start (h : IsPlainlyWritten written) :
    CanGoOn (start written).1 (pieces '/' (start written).2) := by
  unfold start
  split
  · exact .inr (.inl (show Path.isAbsolute ⟨"/"⟩ = true by decide))
  · rename_i hrelative
    exact .inl ⟨rfl, h.resolve_left hrelative⟩

theorem start_spec (written : Path) :
    (start written).1.text ≠ "" ∧ '\x00' ∉ (start written).1.chars ∧
      (start written).1.isAbsolute = written.isAbsolute ∧
      named (pieces '/' (start written).1.chars ++ pieces '/' (start written).2) =
        named (pieces '/' written.chars) ∧
      ∀ c ∈ (start written).2, c ∈ written.chars := by
  have hroot : named (pieces '/' (Path.chars ⟨"/"⟩)) = [] := by decide
  have hcurrent : named (pieces '/' (Path.chars ⟨"."⟩)) = [] := by decide
  unfold start
  split
  · rename_i habsolute
    obtain ⟨rest, hchars⟩ : ∃ rest, written.chars = '/' :: rest := by
      unfold Path.isAbsolute at habsolute
      exact List.head?_eq_some_iff.mp (by simpa using habsolute)
    refine ⟨show "/" ≠ "" by decide, show '\x00' ∉ Path.chars ⟨"/"⟩ by decide, ?_, ?_,
      fun c hc => List.mem_of_mem_drop hc⟩
    · rw [habsolute]
      exact show Path.isAbsolute ⟨"/"⟩ = true by decide
    · rw [named_append, hroot, List.nil_append, hchars, pieces, if_pos rfl, named_idle _ rfl]
      rfl
  · rename_i hrelative
    refine ⟨show "." ≠ "" by decide, show '\x00' ∉ Path.chars ⟨"."⟩ by decide, ?_, ?_, fun c hc =>
      hc⟩
    · rw [Bool.not_eq_true] at hrelative
      rw [hrelative]
      exact show Path.isAbsolute ⟨"."⟩ = false by decide
    · rw [named_append, hcurrent, List.nil_append]

theorem exists_spelled (hplain : IsPlainlyWritten written)
    (h : find tree here written = .ok (location, .directory)) :
    ∃ directory, respell tree here (start written).1
      (pieces '/' (start written).2) = some directory ∧
      SpellsSame tree here directory written := by
  obtain ⟨-, hnul, htravel⟩ := find_directory_iff.mp h
  obtain ⟨hfilled, hclean, habsolute, hnamed, hsub⟩ := start_spec written
  have hway : ∀ piece ∈ pieces '/' (start written).2, '/' ∉ piece ∧ '\x00' ∉ piece :=
    fun piece hpiece => ⟨not_mem_of_mem_pieces hpiece,
      fun hmem => hnul (hsub _ (mem_of_mem_pieces hpiece hmem).1)⟩
  obtain ⟨directory, hspelled, hclean', habsolute', hnamed', hfind⟩ :=
    exists_respell (canGoOn_start hplain) hfilled hclean hway
      (by rw [startOf, habsolute, ← startOf, hnamed]; exact htravel)
  exact ⟨directory, hspelled, hfind.trans h.symm, fun hname =>
    find_inside_eq hname hclean' hnul (habsolute'.trans habsolute) (hnamed'.trans hnamed)⟩

theorem respell_eq_none (h : ¬IsPlainlyWritten written) :
    respell tree here (start written).1 (pieces '/' (start written).2) = none := by
  obtain ⟨hrelative, hfirst⟩ := not_or.mp h
  rw [not_ne_iff] at hfirst
  rw [start, if_neg hrelative]
  dsimp only
  generalize pieces '/' written.chars = way at hfirst
  induction way with
  | nil => cases hfirst
  | cons piece rest ih =>
      rw [respell_cons]
      split
      · rename_i hthere
        by_cases hcurrent : piece = ['.']
        · subst hcurrent
          exact ih (by simpa using hfirst)
        · obtain rfl : piece = [] := by simpa [hcurrent] using hfirst
          cases hthere
      · rfl

end Cythonizer.Proofs.Packaging.Spellings
