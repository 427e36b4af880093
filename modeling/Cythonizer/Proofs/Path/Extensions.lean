import Cythonizer.Proofs.Path.Joining

namespace Cythonizer.Proofs.Path.Extensions

open Cythonizer.Path.Basic
open Cythonizer.Text.Pieces
open Cythonizer.Proofs.Path.Joining
open Cythonizer.Proofs.Path.Names
open Cythonizer.Proofs.Path.Relative

variable {path : Path} {text front name tail : List Char}

def AllIdle (text : List Char) : Prop :=
  ∀ piece ∈ pieces '/' text, isIdle piece = true

/-- A text behind a name that names nothing more. -/
def IsTail (tail : List Char) : Prop :=
  tail = [] ∨ ∃ idle, tail = '/' :: idle ∧ AllIdle idle

theorem allIdle_slash_iff : AllIdle ('/' :: text) ↔ AllIdle text := by
  rw [AllIdle, pieces, if_pos rfl, List.forall_mem_cons]
  exact and_iff_right rfl

theorem allIdle_cons_iff {c : Char} (hc : c ≠ '/') :
    AllIdle (c :: text) ↔ c = '.' ∧ AllIdle text ∧ (text = [] ∨ ∃ rest, text = '/' :: rest) := by
  have hfirst : ∀ {rest : List (List Char)}, pieces '/' text = [] :: rest ↔
      (pieces '/' text).tail = rest ∧ (text = [] ∨ ∃ rest, text = '/' :: rest) := by
    intro rest
    cases text with
    | nil => simp [pieces, eq_comm]
    | cons d more =>
        by_cases hd : d = '/'
        · subst hd
          simp [pieces]
        · rw [pieces, if_neg hd]
          split <;> simp [hd]
  unfold AllIdle
  rw [pieces, if_neg hc]
  cases hpieces : pieces '/' text with
  | nil => exact absurd hpieces (pieces_ne_nil '/' text)
  | cons piece more =>
      dsimp only
      rw [List.forall_mem_cons, List.forall_mem_cons]
      constructor
      · rintro ⟨hidle, hmore⟩
        have hdot : c = '.' ∧ piece = [] := by simpa [isIdle] using hidle
        obtain ⟨rfl, rfl⟩ := hdot
        exact ⟨rfl, ⟨rfl, hmore⟩, (hfirst.mp hpieces).2⟩
      · rintro ⟨rfl, ⟨-, hmore⟩, hstart⟩
        have hempty := hfirst.mpr ⟨rfl, hstart⟩
        rw [hpieces, List.cons.injEq] at hempty
        rw [hempty.1]
        exact ⟨rfl, hmore⟩

theorem allIdle_take (h : AllIdle text) (count : Nat) : AllIdle (text.take count) := by
  induction text generalizing count with
  | nil => simpa using h
  | cons c rest ih =>
      cases count with
      | zero => simp [AllIdle, pieces, isIdle]
      | succ count =>
          rw [List.take_succ_cons]
          by_cases hc : c = '/'
          · subst hc
            exact allIdle_slash_iff.mpr (ih (allIdle_slash_iff.mp h) count)
          · obtain ⟨rfl, hrest, hstart⟩ := (allIdle_cons_iff hc).mp h
            refine (allIdle_cons_iff hc).mpr ⟨rfl, ih hrest count, ?_⟩
            rcases hstart with rfl | ⟨text, rfl⟩
            · exact .inl List.take_nil
            · cases count with
              | zero => exact .inl rfl
              | succ count => exact .inr ⟨_, rfl⟩

theorem IsTail.take (h : IsTail tail) (count : Nat) : IsTail (tail.take count) := by
  rcases h with rfl | ⟨idle, rfl, hidle⟩
  · exact .inl (List.take_nil)
  · cases count with
    | zero => exact .inl rfl
    | succ count => exact .inr ⟨idle.take count, rfl, allIdle_take hidle count⟩

section

variable (h : IsTail tail) (hfilled : text ≠ [])
include h hfilled

theorem anchor_append_tail : anchor (text ++ tail) = anchor text := by
  rcases h with rfl | ⟨idle, rfl, -⟩
  · rw [List.append_nil]
  · have hanchor := @anchor_append_slash text [] idle (.inl rfl) (by simpa using hfilled)
    rwa [List.append_nil] at hanchor

theorem body_append_tail : body (text ++ tail) = body text ++ tail := by
  unfold body
  rw [anchor_append_tail h hfilled]
  split
  · obtain ⟨c, rest, rfl⟩ := List.exists_cons_of_ne_nil hfilled
    rfl
  · rfl

theorem anchorText_append_tail : anchorText (text ++ tail) = anchorText text := by
  unfold anchorText
  rw [anchor_append_tail h hfilled]
  obtain ⟨c, rest, rfl⟩ := List.exists_cons_of_ne_nil hfilled
  rfl

theorem components_append_tail : (Path.ofChars (text ++ tail)).components =
    (Path.ofChars text).components := by
  have hchars : ∀ text, (Path.ofChars text).chars = text := fun text => String.toList_ofList
  unfold Path.components bodyComponents
  rw [hchars, hchars, anchor_append_tail h hfilled, body_append_tail h hfilled]
  rcases h with rfl | ⟨idle, rfl, hidle⟩
  · rw [List.append_nil]
  · rw [pieces_append, ← componentsOf, ← componentsOf, componentsOf_append,
      componentsOf_all_idle hidle,
      List.append_nil]

theorem upToName_append_tail : upToName (text ++ tail) = upToName text := by
  unfold upToName
  rw [anchorText_append_tail h hfilled, body_append_tail h hfilled]
  rcases h with rfl | ⟨idle, rfl, hidle⟩
  · rw [List.append_nil]
  · rw [pieces_append, dropIdleEnd, List.reverse_append,
      List.dropWhile_append_of_pos fun piece hpiece => hidle piece (List.mem_reverse.mp hpiece)]
    rfl

end

/-- A path with a name that is its last component, and what names nothing behind it. -/
structure HasLast (path : Path) (front name tail : List Char) : Prop where
  chars : path.chars = front ++ name ++ tail
  closed : Closed front
  noSlash : '/' ∉ name
  named : isIdle name = false
  tail : IsTail tail

theorem ofChars_chars (path : Path) : Path.ofChars path.chars = path := by
  rw [Path.ofChars, Path.chars, String.ofList_toList]

theorem HasLast.filled (h : HasLast path front name tail) : front ++ name ≠ [] := by
  intro hempty
  obtain ⟨-, rfl⟩ := List.append_eq_nil_iff.mp hempty
  cases h.named

theorem HasLast.ends (h : HasLast path front name tail) :
    Ends (.ofChars (front ++ name)) front name :=
  ⟨String.toList_ofList, h.closed, h.noSlash⟩

theorem HasLast.components (h : HasLast path front name tail) :
    path.components = (Path.ofChars front).components ++ [Component.ofPiece name] := by
  rw [← ofChars_chars path, h.chars, components_append_tail h.tail h.filled]
  exact components_of_ends h.ends h.named

theorem HasLast.upToName (h : HasLast path front name tail) (hname : IsProper name) :
    upToName path.chars = front ++ name := by
  rw [h.chars, upToName_append_tail h.tail h.filled]
  have hends := h.ends.upToName hname
  rwa [h.ends.chars] at hends

theorem spread_append {front back : List (List Char)} (hfront : front ≠ []) (hback : back ≠ []) :
    spread '/' (front ++ back) = spread '/' front ++ '/' :: spread '/' back := by
  induction front with
  | nil => exact absurd rfl hfront
  | cons piece rest ih =>
      rw [List.cons_append]
      by_cases hrest : rest = []
      · subst hrest
        rw [List.nil_append, spread_cons piece hback]
        rfl
      · rw [spread_cons piece (by simp [hrest]), spread_cons piece hrest, ih hrest,
          List.append_assoc,
          List.cons_append]

theorem exists_hasLast {name : String} (h : path.fileName? = some name) :
    ∃ front tail, HasLast path front name.toList tail ∧ IsProper name.toList := by
  obtain ⟨idle, hpieces, hidle⟩ := exists_dropIdleEnd (pieces '/' path.chars)
  have htext := spread_pieces '/' path.chars
  have hname := getLast?_of_fileName h
  rw [← componentsOf_dropIdleEnd] at hname
  rcases List.eq_nil_or_concat (dropIdleEnd (pieces '/' path.chars)) with
    hnil | ⟨before, last, hlast⟩
  · rw [hnil] at hname
    cases hname
  · rw [List.concat_eq_append] at hlast
    have hlastIdle := isIdle_last hlast
    rw [hlast, componentsOf_append, componentsOf_cons [] hlastIdle, List.getLast?_append] at hname
    have hmem : Component.name name.toList ∈ componentsOf [last] := by
      rw [componentsOf_cons [] hlastIdle, ← Option.some.inj hname]
      exact List.mem_singleton_self _
    obtain ⟨hlast', hproper⟩ := mem_of_name_mem hmem
    rw [List.mem_singleton] at hlast'
    subst hlast'
    rw [hlast] at hpieces
    have hslash : ∀ piece ∈ before ++ [name.toList] ++ idle, '/' ∉ piece := fun piece hpiece =>
      not_mem_of_mem_pieces (hpieces ▸ hpiece)
    have htail : ∃ tail, spread '/' (name.toList :: idle) = name.toList ++ tail ∧ IsTail tail := by
      by_cases hempty : idle = []
      · exact ⟨[], by simp [hempty, spread], .inl rfl⟩
      · refine ⟨'/' :: spread '/' idle, spread_cons _ hempty, .inr ⟨_, rfl, ?_⟩⟩
        rw [AllIdle, pieces_spread hempty fun piece hpiece =>
          hslash piece (List.mem_append_right _ hpiece)]
        exact hidle
    obtain ⟨tail, hspread, htail⟩ := htail
    rw [hpieces, List.append_assoc, List.singleton_append] at htext
    have hnoSlash : '/' ∉ name.toList := hslash _ (by simp)
    by_cases hempty : before = []
    · rw [hempty, List.nil_append, hspread] at htext
      exact ⟨[], tail, ⟨htext.symm, .inl rfl, hnoSlash, hlastIdle, htail⟩, hproper⟩
    · rw [spread_append hempty (List.cons_ne_nil _ _), hspread] at htext
      exact ⟨spread '/' before ++ ['/'], tail,
        ⟨by simp [← htext], .inr ⟨_, rfl⟩, hnoSlash, hlastIdle, htail⟩, hproper⟩

theorem stem_prefix (name : List Char) : ∃ rest, name = (cutAtDot name).1 ++ rest := by
  cases hcut : cutAtDot name with
  | mk stem extension =>
      cases extension with
      | some old => exact ⟨_, (eq_of_cutAtDot hcut).1⟩
      | none =>
          refine ⟨[], ?_⟩
          unfold cutAtDot at hcut
          dsimp only at hcut
          split at hcut
          · cases hcut
            rw [List.append_nil]
          · cases hcut

theorem HasLast.exists_components_extend (h : HasLast path front name tail) {extension : String}
    (hfilled : extension ≠ "") (hslash : '/' ∉ extension.toList) :
    ∃ last, (path.extend extension).components = (Path.ofChars front).components ++ [last] := by
  by_cases hparent : name = ['.', '.']
  · have hnone : path.fileName? = none := by
      rw [Path.fileName?, h.components, hparent]
      simp [Component.ofPiece]
    rw [Cythonizer.Path.extend, hnone]
    exact ⟨_, h.components⟩
  · have hname : IsProper name :=
      { filled := by
          rintro rfl
          cases h.named
        notCurrent := by
          rintro rfl
          cases h.named
        notParent := hparent }
    have hfileName : path.fileName? = some (String.ofList name) := by
      rw [Path.fileName?, h.components, ofPiece_of_proper hname, List.getLast?_concat]
    obtain ⟨rest, hrest⟩ := stem_prefix name
    have hends :
      Ends (path.extend extension) front ((cutAtDot name).1 ++ '.' :: extension.toList) := by
      refine ⟨?_, h.closed, ?_⟩
      · rw [Cythonizer.Path.extend, hfileName]
        dsimp only
        rw [String.toList_ofList, h.upToName hname, Path.ofChars, Path.chars, String.toList_ofList]
        have hlength : (front ++ name).length - name.length + (cutAtDot name).1.length =
            (front ++ (cutAtDot name).1).length := by
          simp only [List.length_append]
          omega
        have htext : front ++ name = front ++ (cutAtDot name).1 ++ rest :=
          by rw [List.append_assoc, ← hrest]
        rw [hlength, htext, List.take_left, List.append_assoc]
      · have hstem : '/' ∉ (cutAtDot name).1 := fun hmem =>
          h.noSlash (hrest ▸ List.mem_append_left rest hmem)
        simp [hstem, hslash]
    have hidle : isIdle ((cutAtDot name).1 ++ '.' :: extension.toList) = false := by
      have hextension : extension.toList ≠ [] := fun hempty =>
        hfilled (String.toList_eq_nil_iff.mp hempty)
      cases (cutAtDot name).1 <;> simp [isIdle, hextension]
    exact ⟨_, components_of_ends hends hidle⟩

theorem HasLast.exists_kept {stem old : List Char}
    (h : HasLast path front (stem ++ '.' :: old) tail)
    (hstem : stem ≠ []) :
    ∃ name tail, HasLast (.ofChars (path.chars.take (path.chars.length - old.length)))
      front name tail := by
  have hkept : path.chars.take (path.chars.length - old.length) =
      front ++ (stem ++ '.' :: (old ++ tail).take tail.length) := by
    have htext : path.chars = (front ++ (stem ++ ['.'])) ++ (old ++ tail) := by
      rw [h.chars]
      simp
    have hlength :
      path.chars.length - old.length = (front ++ (stem ++ ['.'])).length + tail.length := by
      rw [htext, List.length_append, @List.length_append _ old tail]
      omega
    rw [hlength, htext, List.take_length_add_append]
    simp
  have hnamed : ∀ {rest tail'}, '/' ∉ rest → IsTail tail' →
    (old ++ tail).take tail.length = rest ++ tail' →
      HasLast (.ofChars (path.chars.take (path.chars.length - old.length))) front
        (stem ++ '.' :: rest)
        tail' := by
    intro rest tail' hrest htail' hcut
    have hslash : '/' ∉ stem := fun hmem => h.noSlash (List.mem_append_left _ hmem)
    refine ⟨?_, h.closed, by simp [hslash, hrest], ?_, htail'⟩
    · rw [hkept, hcut, Path.ofChars, Path.chars, String.toList_ofList]
      simp
    · obtain ⟨c, more, rfl⟩ := List.exists_cons_of_ne_nil hstem
      simp [isIdle]
  have hslash : '/' ∉ old := fun hmem => h.noSlash (by simp [hmem])
  rcases Nat.le_total tail.length old.length with hshort | hlong
  · have hcut : (old ++ tail).take tail.length = old.take tail.length ++ [] := by
      rw [List.take_append_of_le_length hshort, List.append_nil]
    exact ⟨_, _, hnamed (fun hmem => hslash (List.mem_of_mem_take hmem)) (.inl rfl) hcut⟩
  · have hcut : (old ++ tail).take tail.length = old ++ tail.take (tail.length - old.length) := by
      rw [List.take_append, List.take_of_length_le hlong]
    exact ⟨_, _, hnamed hslash (h.tail.take _) hcut⟩

theorem exists_components_withExtension {name extension : String} (h : path.fileName? = some name)
    (hfilled : extension ≠ "") (hslash : '/' ∉ extension.toList) :
    ∃ last, (path.withExtension extension).components = path.components.dropLast ++ [last] := by
  obtain ⟨front, tail, hlast, hname⟩ := exists_hasLast h
  rw [hlast.components, List.dropLast_concat]
  unfold Path.withExtension
  split
  · exact hlast.exists_components_extend hfilled hslash
  · rename_i old hold
    rw [Path.extension?, h, Option.bind_some] at hold
    obtain ⟨ext, hext, rfl⟩ := Option.map_eq_some_iff.mp hold
    obtain ⟨heq, hstem⟩ := eq_of_cutAtDot (Prod.ext rfl hext)
    rw [heq] at hlast
    obtain ⟨kept, tail', hkept⟩ := hlast.exists_kept hstem
    rw [String.toList_ofList]
    exact hkept.exists_components_extend hfilled hslash

theorem length_components_withExtension {extension : String} (path : Path)
    (hfilled : extension ≠ "")
    (hslash : '/' ∉ extension.toList) :
    (path.withExtension extension).components.length = path.components.length := by
  cases hname : path.fileName? with
  | none =>
      have hnone : path.extension? = none := by rw [Path.extension?, hname, Option.bind_none]
      rw [Path.withExtension, hnone]
      dsimp only
      rw [Cythonizer.Path.extend, hname]
  | some name =>
      obtain ⟨last, hlast⟩ := exists_components_withExtension hname hfilled hslash
      have hcomponents : path.components ≠ [] := by
        intro hempty
        rw [Path.fileName?, hempty] at hname
        cases hname
      rw [hlast, List.length_append, List.length_dropLast, List.length_singleton]
      exact Nat.sub_add_cancel (List.length_pos_iff.mpr hcomponents)

end Cythonizer.Proofs.Path.Extensions
