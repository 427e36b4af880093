import Mathlib.Data.List.DropRight
import Mathlib.Data.List.TakeWhile
import Cythonizer.Proofs.Path.Names

namespace Cythonizer.Proofs.Path.Relative

open Cythonizer.Path.Basic
open Cythonizer.Text.Pieces
open Cythonizer.Proofs.Path.Names

variable {path base : Path} {text : List Char} {names : List (List Char)}

/-- The components among the pieces of a text. -/
def componentsOf (pieces : List (List Char)) : List Component :=
  (pieces.filter fun piece => !isIdle piece).map Component.ofPiece

theorem componentsOf_append (a b : List (List Char)) :
    componentsOf (a ++ b) = componentsOf a ++ componentsOf b := by
  simp [componentsOf]

theorem componentsOf_idle {piece : List Char} (rest : List (List Char)) (h : isIdle piece = true) :
    componentsOf (piece :: rest) = componentsOf rest := by
  simp [componentsOf, h]

theorem componentsOf_cons {piece : List Char} (rest : List (List Char)) (h : isIdle piece = false) :
    componentsOf (piece :: rest) = Component.ofPiece piece :: componentsOf rest := by
  simp [componentsOf, h]

theorem componentsOf_all_idle {pieces : List (List Char)}
    (h : ∀ piece ∈ pieces, isIdle piece = true) :
    componentsOf pieces = [] := by
  rw [componentsOf, List.map_eq_nil_iff, List.filter_eq_nil_iff]
  simpa using h

theorem ofPiece_of_proper {piece : List Char} (h : IsProper piece) :
    Component.ofPiece piece = .name piece := by
  rw [Component.ofPiece, if_neg h.notParent]

theorem mem_of_mem_pieces {separator c : Char} {text piece : List Char}
    (h : piece ∈ pieces separator text) (hc : c ∈ piece) : c ∈ text ∧ c ≠ separator := by
  induction text generalizing piece with
  | nil =>
      rw [pieces, List.mem_singleton] at h
      rw [h] at hc
      cases hc
  | cons d rest ih =>
      rw [pieces] at h
      split at h
      · rcases List.mem_cons.mp h with rfl | h
        · cases hc
        · exact (ih h hc).imp_left (List.mem_cons_of_mem d)
      · rename_i hd
        cases hrest : pieces separator rest with
        | nil => exact absurd hrest (pieces_ne_nil separator rest)
        | cons first more =>
            rw [hrest] at h ih
            rcases List.mem_cons.mp h with rfl | h
            · rcases List.mem_cons.mp hc with rfl | hc
              · exact ⟨List.mem_cons_self, hd⟩
              · exact (ih List.mem_cons_self hc).imp_left (List.mem_cons_of_mem d)
            · exact (ih (List.mem_cons_of_mem first h) hc).imp_left (List.mem_cons_of_mem d)

theorem not_mem_of_mem_pieces {separator : Char} {text piece : List Char}
    (h : piece ∈ pieces separator text) : separator ∉ piece :=
  fun hmem => (mem_of_mem_pieces h hmem).2 rfl

theorem mem_of_name_mem {pieces : List (List Char)} {name : List Char}
    (h : Component.name name ∈ componentsOf pieces) : name ∈ pieces ∧ IsProper name := by
  obtain ⟨piece, hpiece, hname⟩ := List.mem_map.mp h
  obtain ⟨hmem, hidle⟩ := List.mem_filter.mp hpiece
  unfold Component.ofPiece at hname
  split at hname
  · cases hname
  · rename_i hparent
    cases hname
    simp only [isIdle, Bool.not_eq_true', Bool.or_eq_false_iff, List.isEmpty_eq_false_iff,
      beq_eq_false_iff_ne] at hidle
    exact ⟨hmem, hidle.1, hidle.2, hparent⟩

theorem pieces_spread {separator : Char} {texts : List (List Char)} (hfilled : texts ≠ [])
    (h : ∀ text ∈ texts, separator ∉ text) : pieces separator (spread separator texts) = texts := by
  induction texts with
  | nil => exact absurd rfl hfilled
  | cons text rest ih =>
      obtain ⟨htext, hrest⟩ := List.forall_mem_cons.mp h
      cases rest with
      | nil => rw [spread, pieces_of_not_mem htext]
      | cons next more =>
          rw [spread_cons text (by simp), pieces_append, pieces_of_not_mem htext,
            ih (by simp) hrest]
          rfl

theorem spread_prefix {separator : Char} {front texts : List (List Char)} (h : front <+: texts) :
    spread separator front <+: spread separator texts := by
  induction front generalizing texts with
  | nil => exact List.nil_prefix
  | cons text rest ih =>
      obtain ⟨more, rfl⟩ := h
      rw [List.cons_append]
      by_cases hrest : rest = []
      · subst hrest
        cases more with
        | nil => exact List.prefix_refl _
        | cons other more =>
            rw [List.nil_append, spread_cons text (List.cons_ne_nil other more)]
            exact List.prefix_append _ _
      · rw [spread_cons text hrest, spread_cons text (by simp [hrest]),
          List.prefix_append_right_inj,
          List.cons_prefix_cons]
        exact ⟨rfl, ih (List.prefix_append _ _)⟩

theorem components_cases (path : Path) :
    path.components = (if path.isAbsolute then [.root] else []) ++
      componentsOf (pieces '/' path.chars) ∨
      path.isAbsolute = false ∧ path.components = .current ::
        componentsOf (pieces '/' path.chars) := by
  unfold Path.components Path.isAbsolute bodyComponents
  rw [← componentsOf]
  cases hchars : path.chars with
  | nil => exact .inl rfl
  | cons c rest =>
      by_cases hslash : c = '/'
      · subst hslash
        refine .inl ?_
        rw [show pieces '/' ('/' :: rest) = [] :: pieces '/' rest by simp [pieces],
          componentsOf_idle _ (by decide)]
        simp [anchor, body]
      · by_cases hdot : c = '.'
        · subst hdot
          cases rest with
          | nil => exact .inr ⟨rfl, by simp [anchor, body, pieces, componentsOf, isIdle]⟩
          | cons d rest =>
              by_cases hd : d = '/'
              · subst hd
                refine .inr ⟨rfl, ?_⟩
                have hpieces : pieces '/' ('.' :: '/' :: rest) = ['.'] :: pieces '/' rest := by
                  simp [pieces]
                have hbody : pieces '/' ('/' :: rest) = [] :: pieces '/' rest := by simp [pieces]
                rw [hpieces, componentsOf_idle _ (by decide)]
                simp [anchor, body, hbody, componentsOf_idle, isIdle]
              · exact .inl (by simp [anchor, body, hd])
        · exact .inl (by simp [anchor, body, hslash, hdot])

theorem exists_of_afterComponents {components more : List Component} {pieces : List (List Char)}
    (h : componentsOf pieces = components ++ more) :
    ∃ left, afterComponents components pieces = some left ∧ componentsOf left = more ∧
      ∀ piece ∈ left, piece ∈ pieces := by
  induction pieces generalizing components with
  | nil =>
      obtain ⟨rfl, rfl⟩ := List.append_eq_nil_iff.mp h.symm
      exact ⟨[], rfl, rfl, by simp⟩
  | cons piece rest ih =>
      cases components with
      | nil => exact ⟨piece :: rest, by simp [afterComponents], h, by simp⟩
      | cons c components =>
          rw [afterComponents]
          by_cases hidle : isIdle piece = true
          · rw [componentsOf_idle rest hidle] at h
            obtain ⟨left, hleft, hmore, hmem⟩ := ih h
            rw [if_pos hidle]
            exact ⟨left, hleft, hmore, fun p hp => List.mem_cons_of_mem piece (hmem p hp)⟩
          · rw [componentsOf_cons rest (by simpa using hidle), List.cons_append,
              List.cons.injEq] at h
            obtain ⟨left, hleft, hmore, hmem⟩ := ih h.2
            rw [if_neg hidle, if_pos h.1]
            exact ⟨left, hleft, hmore, fun p hp => List.mem_cons_of_mem piece (hmem p hp)⟩

theorem componentsOf_dropWhile (pieces : List (List Char)) :
    componentsOf (pieces.dropWhile isIdle) = componentsOf pieces := by
  induction pieces with
  | nil => rfl
  | cons piece rest ih =>
      by_cases hidle : isIdle piece = true
      · rw [List.dropWhile_cons_of_pos hidle, ih, componentsOf_idle rest hidle]
      · rw [List.dropWhile_cons_of_neg hidle]

theorem exists_dropIdleEnd (pieces : List (List Char)) :
    ∃ idle, pieces = dropIdleEnd pieces ++ idle ∧ ∀ piece ∈ idle, isIdle piece = true := by
  refine ⟨(pieces.reverse.takeWhile isIdle).reverse, ?_, ?_⟩
  · rw [dropIdleEnd, ← List.reverse_append, List.takeWhile_append_dropWhile, List.reverse_reverse]
  · intro piece hpiece
    exact List.mem_takeWhile_imp (List.mem_reverse.mp hpiece)

theorem componentsOf_dropIdleEnd (pieces : List (List Char)) :
    componentsOf (dropIdleEnd pieces) = componentsOf pieces := by
  obtain ⟨idle, hpieces, hidle⟩ := exists_dropIdleEnd pieces
  have hcomponents := congrArg componentsOf hpieces
  rw [componentsOf_append, componentsOf_all_idle hidle, List.append_nil] at hcomponents
  exact hcomponents.symm

theorem isIdle_last {pieces front : List (List Char)} {last : List Char}
    (h : dropIdleEnd pieces = front ++ [last]) : isIdle last = false := by
  have hreverse : pieces.reverse.dropWhile isIdle = last :: front.reverse := by
    rw [dropIdleEnd, List.reverse_eq_iff] at h
    simpa using h
  have hne : pieces.reverse.dropWhile isIdle ≠ [] := by simp [hreverse]
  simpa [hreverse] using List.head_dropWhile_not isIdle hne

theorem isAbsolute_of_anchor (h : anchor path.chars = none) : path.isAbsolute = false := by
  unfold Path.isAbsolute
  cases hchars : path.chars with
  | nil => rfl
  | cons c rest =>
      have hc : c ≠ '/' := by
        rintro rfl
        rw [hchars] at h
        cases h
      simpa using hc

theorem components_of_anchor (h : anchor path.chars = none) :
    path.components = componentsOf (pieces '/' path.chars) := by
  unfold Path.components bodyComponents body
  rw [← componentsOf, h]
  rfl

theorem exists_first_piece (hanchor : anchor text = none) (hfilled : text ≠ []) :
    ∃ piece rest, pieces '/' text = piece :: rest ∧ isIdle piece = false := by
  obtain ⟨c, rest, rfl⟩ := List.exists_cons_of_ne_nil hfilled
  have hc : c ≠ '/' := by
    rintro rfl
    simp [anchor] at hanchor
  rw [pieces, if_neg hc]
  cases hrest : pieces '/' rest with
  | nil => exact absurd hrest (pieces_ne_nil '/' rest)
  | cons piece more =>
      refine ⟨c :: piece, more, rfl, ?_⟩
      by_contra hidle
      have hdot : c = '.' ∧ piece = [] := by simpa [isIdle] using hidle
      obtain ⟨rfl, rfl⟩ := hdot
      cases rest with
      | nil => simp [anchor] at hanchor
      | cons d rest =>
          by_cases hd : d = '/'
          · subst hd
            simp [anchor] at hanchor
          · rw [pieces, if_neg hd] at hrest
            split at hrest <;> cases hrest

theorem anchor_of_pieces {first : List Char} {rest : List (List Char)}
    (h : pieces '/' text = first :: rest) (hidle : isIdle first = false) : anchor text = none := by
  unfold anchor
  split
  · rw [pieces, if_pos rfl, List.cons.injEq] at h
    rw [← h.1] at hidle
    cases hidle
  · cases h
    cases hidle
  · rename_i rest'
    have hpieces : pieces '/' ('.' :: '/' :: rest') = ['.'] :: pieces '/' rest' := by simp [pieces]
    rw [hpieces, List.cons.injEq] at h
    rw [← h.1] at hidle
    cases hidle
  · rfl

/-- Pieces without idle ones at their start and at their end. -/
def trim (pieces : List (List Char)) : List (List Char) :=
  dropIdleEnd (pieces.dropWhile isIdle)

theorem componentsOf_trim (pieces : List (List Char)) :
    componentsOf (trim pieces) = componentsOf pieces := by
  rw [trim, componentsOf_dropIdleEnd, componentsOf_dropWhile]

theorem mem_of_mem_trim {pieces : List (List Char)} {piece : List Char} (h : piece ∈ trim pieces) :
    piece ∈ pieces := by
  obtain ⟨idle, hpieces, -⟩ := exists_dropIdleEnd (pieces.dropWhile isIdle)
  exact (List.dropWhile_suffix isIdle).subset (hpieces ▸ List.mem_append_left idle h)

theorem isIdle_of_trim {pieces rest : List (List Char)} {first : List Char}
    (h : trim pieces = first :: rest) : isIdle first = false := by
  obtain ⟨idle, hpieces, -⟩ := exists_dropIdleEnd (pieces.dropWhile isIdle)
  rw [← trim, h, List.cons_append] at hpieces
  have hne : pieces.dropWhile isIdle ≠ [] := by simp [hpieces]
  simpa [hpieces] using List.head_dropWhile_not isIdle hne

theorem trim_trim (pieces : List (List Char)) : trim (trim pieces) = trim pieces := by
  cases htrim : trim pieces with
  | nil => rfl
  | cons first rest =>
      rw [trim, List.dropWhile_cons_of_neg (by simp [isIdle_of_trim htrim]), ← htrim,
        trim, dropIdleEnd,
        dropIdleEnd, List.reverse_reverse, List.dropWhile_idempotent]

/-- A path that is written from its first component to its last one. -/
structure IsTrimmed (path : Path) : Prop where
  anchor : anchor path.chars = none
  trim : spread '/' (trim (pieces '/' path.chars)) = path.chars

theorem upToName_eq_trim (h : anchor text = none) :
    upToName text = spread '/' (trim (pieces '/' text)) := by
  have htext : upToName text = spread '/' (dropIdleEnd (pieces '/' text)) := by
    simp [upToName, anchorText, body, h]
  rw [htext, trim]
  by_cases hempty : text = []
  · subst hempty
    rfl
  · obtain ⟨first, rest, hpieces, hidle⟩ := exists_first_piece h hempty
    rw [hpieces, List.dropWhile_cons_of_neg (by simp [hidle])]

theorem isTrimmed_spread {left : List (List Char)} (hslash : ∀ piece ∈ left, '/' ∉ piece) :
    IsTrimmed (.ofChars (spread '/' (trim left))) ∧
      (Path.ofChars (spread '/' (trim left))).components = componentsOf left := by
  cases htrim : trim left with
  | nil =>
      have hleft := componentsOf_trim left
      rw [htrim] at hleft
      rw [← hleft]
      exact ⟨⟨rfl, rfl⟩, rfl⟩
  | cons first rest =>
      have hpieces : pieces '/' (Path.ofChars (spread '/' (first :: rest))).chars =
        first :: rest := by
        rw [Path.ofChars, Path.chars, String.toList_ofList]
        exact pieces_spread (List.cons_ne_nil first rest) fun piece hpiece =>
          hslash piece (mem_of_mem_trim (htrim ▸ hpiece))
      have hanchor := anchor_of_pieces hpieces (isIdle_of_trim htrim)
      refine ⟨⟨hanchor, ?_⟩, ?_⟩
      · rw [hpieces, ← htrim, trim_trim, Path.ofChars, Path.chars, String.toList_ofList]
      · rw [components_of_anchor hanchor, hpieces, ← htrim, componentsOf_trim]

theorem anchor_of_names (h : path.components = names.map Component.name) :
    anchor path.chars = none := by
  unfold Path.components at h
  cases hanchor : anchor path.chars with
  | none => rfl
  | some c =>
      exfalso
      have hstart : c = .root ∨ c = .current := by
        unfold anchor at hanchor
        split at hanchor
        · exact .inl (Option.some.inj hanchor).symm
        · exact .inr (Option.some.inj hanchor).symm
        · exact .inr (Option.some.inj hanchor).symm
        · cases hanchor
      rw [hanchor] at h
      rcases hstart with rfl | rfl
      all_goals cases names <;> cases h

theorem exists_stripPrefix? (h : path.components = base.components ++ names.map Component.name) :
    ∃ relative, path.stripPrefix? base = some relative ∧ IsTrimmed relative ∧
      relative.components = names.map Component.name := by
  have hleft : ∀ {components}, componentsOf (pieces '/' (body path.chars)) =
      components ++ names.map Component.name →
      ∃ left, afterComponents components (pieces '/' (body path.chars)) = some left ∧
        IsTrimmed (.ofChars (spread '/' (trim left))) ∧
        (Path.ofChars (spread '/' (trim left))).components = names.map Component.name := by
    intro components hcomponents
    obtain ⟨left, hafter, hmore, hmem⟩ := exists_of_afterComponents hcomponents
    obtain ⟨htrimmed, hnames⟩ := isTrimmed_spread fun piece hpiece =>
      not_mem_of_mem_pieces (hmem piece hpiece)
    exact ⟨left, hafter, htrimmed, hnames.trans hmore⟩
  unfold Path.stripPrefix?
  dsimp only
  split
  · rename_i hbase
    rw [hbase, List.nil_append] at h
    have hanchor := anchor_of_names h
    obtain ⟨htrimmed, hnames⟩ := isTrimmed_spread fun piece =>
      @not_mem_of_mem_pieces '/' path.chars piece
    rw [upToName_eq_trim hanchor]
    exact ⟨_, rfl, htrimmed, by rw [hnames, ← components_of_anchor hanchor, h]⟩
  · rename_i c rest hbase
    rw [hbase] at h
    unfold Path.components bodyComponents at h
    rw [← componentsOf] at h
    cases hanchor : anchor path.chars with
    | some anchored =>
        rw [hanchor, Option.toList_some, List.singleton_append, List.cons_append,
          List.cons.injEq] at h
        obtain ⟨left, hafter, hrelative⟩ := hleft h.2
        dsimp only
        rw [if_pos h.1, hafter]
        exact ⟨_, rfl, hrelative⟩
    | none =>
        rw [hanchor, Option.toList_none, List.nil_append] at h
        obtain ⟨left, hafter, hrelative⟩ := hleft h
        dsimp only
        rw [hafter]
        exact ⟨_, rfl, hrelative⟩

theorem trim_pieces (h : IsTrimmed path) (hfilled : path.components ≠ []) :
    trim (pieces '/' path.chars) = pieces '/' path.chars := by
  rw [components_of_anchor h.anchor, ← componentsOf_trim] at hfilled
  have hnotnil : trim (pieces '/' path.chars) ≠ [] := by
    intro hnil
    rw [hnil] at hfilled
    exact hfilled rfl
  have hspread := pieces_spread hnotnil fun piece hpiece =>
    not_mem_of_mem_pieces (mem_of_mem_trim hpiece)
  rw [h.trim] at hspread
  exact hspread.symm

/-- A relative path of names that ends with the last of them. -/
structure IsRelative (path : Path) (names : List (List Char)) : Prop where
  relative : path.isAbsolute = false
  components : componentsOf (pieces '/' path.chars) = names.map Component.name
  ends : ∃ front name, Ends path front name ∧ names.getLast? = some name

theorem IsTrimmed.isRelative (h : IsTrimmed path) (hfilled : names ≠ [])
    (hnames : path.components = names.map Component.name) : IsRelative path names := by
  have hpieces := trim_pieces h (by simpa [hnames] using hfilled)
  rw [components_of_anchor h.anchor] at hnames
  refine ⟨isAbsolute_of_anchor h.anchor, hnames, ?_⟩
  obtain ⟨front, name, hends⟩ := exists_ends path
  refine ⟨front, name, hends, ?_⟩
  rw [hends.pieces] at hpieces hnames
  rw [componentsOf_append, componentsOf_cons [] (isIdle_last hpieces)] at hnames
  have hlast : names.getLast?.map Component.name = some (Component.ofPiece name) := by
    rw [← List.getLast?_map, ← hnames]
    simp [componentsOf]
  obtain ⟨last, hnames', hpiece⟩ := Option.map_eq_some_iff.mp hlast
  unfold Component.ofPiece at hpiece
  split at hpiece
  · cases hpiece
  · cases hpiece
    exact hnames'

theorem stripPrefix?_of_below (hfilled : names ≠ [])
    (h : path.components = base.components ++ names.map Component.name) :
    ∃ relative, path.stripPrefix? base = some relative ∧ IsRelative relative names := by
  obtain ⟨relative, hstrip, htrimmed, hnames⟩ := exists_stripPrefix? h
  exact ⟨relative, hstrip, htrimmed.isRelative hfilled hnames⟩

end Cythonizer.Proofs.Path.Relative
