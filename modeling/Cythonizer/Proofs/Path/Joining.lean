import Cythonizer.Proofs.Path.Relative

namespace Cythonizer.Proofs.Path.Joining

open Cythonizer.Path.Basic
open Cythonizer.Text.Pieces
open Cythonizer.Proofs.Path.Names
open Cythonizer.Proofs.Path.Relative

variable {path other relative base : Path} {text : List Char} {names : List (List Char)}

section Join

theorem chars_join (path : Path) (h : other.isAbsolute = false) :
    path.chars = [] ∧ (path.join other).chars = other.chars ∨
      ∃ front idle, path.chars ≠ [] ∧ path.chars = front ++ idle ∧ (idle = [] ∨ idle = ['/']) ∧
        (path.join other).chars = front ++ '/' :: other.chars := by
  unfold Path.join
  rw [if_neg (by simp [h])]
  split
  · rename_i hempty
    have hchars : path.chars = [] := List.getLast?_eq_none_iff.mp hempty
    have htext : path.text = "" := String.toList_eq_nil_iff.mp hchars
    exact .inl ⟨hchars, by simp [htext, Path.chars]⟩
  · rename_i hslash
    obtain ⟨front, hfront⟩ := List.getLast?_eq_some_iff.mp hslash
    refine .inr ⟨front, ['/'], by simp [hfront], hfront, .inr rfl, ?_⟩
    rw [Path.chars, String.toList_append, show path.text.toList = front ++ ['/'] from hfront]
    simp [Path.chars]
  · rename_i last _ hlast
    have hfilled : path.chars ≠ [] := by
      intro hempty
      rw [hempty] at hlast
      cases hlast
    exact .inr ⟨path.chars, [], hfilled, by simp, .inl rfl, by simp [Path.chars]⟩

theorem anchor_append_slash {front idle : List Char} (text : List Char)
    (hidle : idle = [] ∨ idle = ['/'])
    (hfilled : front ++ idle ≠ []) : anchor (front ++ '/' :: text) = anchor (front ++ idle) := by
  rcases front with _ | ⟨c, _ | ⟨d, front⟩⟩
  · rcases hidle with rfl | rfl
    · exact absurd rfl hfilled
    · rfl
  · by_cases hc : c = '/' <;> by_cases hdot : c = '.' <;> rcases hidle with rfl | rfl <;>
      simp_all [anchor]
  · by_cases hc : c = '/' <;> by_cases hdot : c = '.' <;> by_cases hd :
      d = '/' <;> simp_all [anchor]

theorem componentsOf_closed {front idle : List Char} (hidle : idle = [] ∨ idle = ['/']) :
    componentsOf (pieces '/' (front ++ idle)) = componentsOf (pieces '/' front) := by
  rcases hidle with rfl | rfl
  · rw [List.append_nil]
  · rw [pieces_append, componentsOf_append, @componentsOf_all_idle (pieces '/' []) (by decide),
      List.append_nil]

theorem exists_pieces_join (htext : path.text ≠ "") (h : other.isAbsolute = false) :
    anchor (path.join other).chars = anchor path.chars ∧
    ∃ front, pieces '/' (body (path.join other).chars) = front ++ pieces '/' other.chars ∧
      componentsOf (pieces '/' (body path.chars)) = componentsOf front := by
  rcases chars_join path h with ⟨hempty, -⟩ | ⟨front, idle, hfilled, hpath, hidle, hjoined⟩
  · exact absurd (String.toList_eq_nil_iff.mp hempty) htext
  · have hanchor : anchor (path.join other).chars = anchor path.chars := by
      rw [hjoined, hpath]
      exact anchor_append_slash _ hidle (hpath ▸ hfilled)
    refine ⟨hanchor, ?_⟩
    unfold body
    rw [hanchor]
    split
    · cases front with
      | nil =>
          obtain rfl := hidle.resolve_left (by rintro rfl; exact hfilled hpath)
          rw [hjoined, hpath]
          exact ⟨[], rfl, rfl⟩
      | cons c front =>
          rw [hjoined, hpath, List.cons_append, List.cons_append, List.drop_one, List.drop_one,
            List.tail_cons, List.tail_cons, pieces_append, componentsOf_closed hidle]
          exact ⟨_, rfl, rfl⟩
    · rw [hjoined, hpath, pieces_append, componentsOf_closed hidle]
      exact ⟨_, rfl, rfl⟩

theorem components_join_of_relative (htext : path.text ≠ "") (h : other.isAbsolute = false) :
    (path.join other).components = path.components ++ componentsOf (pieces '/' other.chars) := by
  obtain ⟨hanchor, front, hpieces, hfront⟩ := exists_pieces_join htext h
  unfold Path.components bodyComponents
  rw [← componentsOf, ← componentsOf, hanchor, hpieces, componentsOf_append, hfront,
    List.append_assoc]

theorem components_join_of_anchor (h : anchor other.chars = none) :
    (path.join other).components = path.components ++ other.components := by
  by_cases htext : path.text = ""
  · obtain rfl : path = ⟨""⟩ := by cases path; simpa using htext
    rcases chars_join ⟨""⟩ (isAbsolute_of_anchor h) with ⟨-, hjoined⟩ | ⟨_, _, hfilled, _⟩
    · rw [Path.components, Path.components, hjoined]
      rfl
    · exact absurd rfl hfilled
  · rw [components_join_of_relative htext (isAbsolute_of_anchor h), components_of_anchor h]

end Join

section Strip

theorem afterComponents_append (front rest : List (List Char)) :
    ∃ left, afterComponents (componentsOf front) (front ++ rest) = some left ∧
      trim left = trim rest := by
  induction front with
  | nil => exact ⟨rest, by simp [componentsOf, afterComponents], rfl⟩
  | cons piece front ih =>
      by_cases hidle : isIdle piece = true
      · rw [componentsOf_idle front hidle]
        cases hcomponents : componentsOf front with
        | nil =>
            rw [hcomponents, afterComponents] at ih
            obtain ⟨left, hleft, htrim⟩ := ih
            cases hleft
            refine ⟨piece :: (front ++ rest), rfl, ?_⟩
            rw [trim, List.dropWhile_cons_of_pos hidle, ← trim, htrim]
        | cons c more =>
            rw [List.cons_append, afterComponents, if_pos hidle, ← hcomponents]
            exact ih
      · rw [componentsOf_cons front (by simpa using hidle), List.cons_append,
          afterComponents, if_neg hidle,
          if_pos rfl]
        exact ih

theorem components_ne_nil (h : path.text ≠ "") : path.components ≠ [] := by
  cases hanchor : anchor path.chars with
  | some c => simp [Path.components, hanchor]
  | none =>
      have hfilled : path.chars ≠ [] := fun hempty => h (String.toList_eq_nil_iff.mp hempty)
      obtain ⟨first, rest, hpieces, hidle⟩ := exists_first_piece hanchor hfilled
      rw [components_of_anchor hanchor, hpieces, componentsOf_cons rest hidle]
      exact List.cons_ne_nil _ _

theorem stripPrefix?_join (h : IsTrimmed relative) :
    (base.join relative).stripPrefix? base = some relative := by
  have hrelative := isAbsolute_of_anchor h.anchor
  have hchars : Path.ofChars relative.chars = relative := by
    rw [Path.ofChars, Path.chars, String.ofList_toList]
  by_cases htext : base.text = ""
  · obtain rfl : base = ⟨""⟩ := by cases base; simpa using htext
    have hjoined : (Path.join ⟨""⟩ relative).chars = relative.chars := by
      rcases chars_join ⟨""⟩ hrelative with ⟨-, hjoined⟩ | ⟨_, _, hfilled, _⟩
      · exact hjoined
      · exact absurd rfl hfilled
    change some (Path.ofChars (upToName (Path.join ⟨""⟩ relative).chars)) = _
    rw [hjoined, upToName_eq_trim h.anchor, h.trim, hchars]
  · obtain ⟨hanchor, front, hpieces, hfront⟩ := exists_pieces_join htext hrelative
    obtain ⟨left, hafter, htrim⟩ := afterComponents_append front (pieces '/' relative.chars)
    have hspread : Path.ofChars (spread '/' (dropIdleEnd (left.dropWhile isIdle))) = relative := by
      rw [← trim, htrim, h.trim, hchars]
    have hbase : base.components = (anchor base.chars).toList ++ componentsOf front := by
      rw [← hfront]
      rfl
    unfold Path.stripPrefix?
    dsimp only
    rw [hanchor, hpieces]
    split
    · rename_i hnone
      exact absurd hnone (components_ne_nil htext)
    · rename_i c rest hcomponents
      rw [hcomponents] at hbase
      cases hstart : anchor base.chars with
      | some first =>
          rw [hstart, Option.toList_some, List.singleton_append, List.cons.injEq] at hbase
          dsimp only
          rw [if_pos hbase.1.symm, hbase.2, hafter, Option.map_some, hspread]
      | none =>
          rw [hstart, Option.toList_none, List.nil_append] at hbase
          dsimp only
          rw [hbase, hafter, Option.map_some, hspread]

end Strip

section Ends

theorem components_of_ends {front name : List Char} (h : Ends path front name)
    (hidle : isIdle name = false) :
    path.components = (Path.ofChars front).components ++ [Component.ofPiece name] := by
  have hcurrent : name ≠ ['.'] := by
    rintro rfl
    cases hidle
  obtain ⟨middle, hmiddle, hanchored, hbody⟩ := body_append h.closed h.noSlash hcurrent
  have hfront : (Path.ofChars front).chars = front :=
    by rw [Path.ofChars, Path.chars, String.toList_ofList]
  by_cases hempty : front = []
  · subst hempty
    have hname : path.chars = name := h.chars
    have hanchor : anchor path.chars = none := hname ▸ anchor_of_name h.noSlash hcurrent
    rw [components_of_anchor hanchor, hname, pieces_of_not_mem h.noSlash,
      componentsOf_cons [] hidle]
    rfl
  · have hanchor := anchor_append name h.closed hempty
    have hfrontBody : body front = middle := by
      obtain ⟨c, rest, rfl⟩ := List.exists_cons_of_ne_nil hempty
      have htext : anchorText (c :: rest ++ name) = anchorText (c :: rest) := by
        unfold anchorText
        rw [hanchor]
        rfl
      rw [htext] at hanchored
      exact List.append_cancel_left ((anchorText_append_body (c :: rest)).trans hanchored.symm)
    have hmiddlePieces : componentsOf (pieces '/' middle) = componentsOf (above middle) := by
      have hpieces := @pieces_of_closed middle [] hmiddle (by simp)
      rw [List.append_nil] at hpieces
      rw [hpieces, componentsOf_append, @componentsOf_all_idle [[]] (by decide), List.append_nil]
    unfold Path.components bodyComponents
    rw [← componentsOf, ← componentsOf, h.chars, hfront, hanchor, hbody, hfrontBody,
      pieces_of_closed hmiddle h.noSlash, componentsOf_append, componentsOf_cons
        [] hidle, hmiddlePieces,
      List.append_assoc]
    rfl

end Ends

section Names

theorem getLast?_of_fileName {name : String} (h : path.fileName? = some name) :
    (componentsOf (pieces '/' path.chars)).getLast? = some (.name name.toList) := by
  have hlast : path.components.getLast? = some (.name name.toList) := by
    unfold Path.fileName? at h
    split at h
    · rename_i text hlast
      cases h
      rw [hlast, String.toList_ofList]
    · cases h
  rcases components_cases path with hcomponents | ⟨-, hcomponents⟩
  · rw [hcomponents, List.getLast?_append] at hlast
    cases hnames : (componentsOf (pieces '/' path.chars)).getLast? with
    | some component => rwa [hnames] at hlast
    | none =>
        rw [hnames, Option.none_or] at hlast
        split at hlast <;> cases hlast
  · rw [hcomponents, List.getLast?_cons] at hlast
    cases hnames : (componentsOf (pieces '/' path.chars)).getLast? with
    | some component => rwa [hnames] at hlast
    | none =>
        rw [hnames] at hlast
        cases hlast

theorem fileName?_join {name : String} (path : Path) (h : other.fileName? = some name) :
    (path.join other).fileName? = some name := by
  by_cases habsolute : other.isAbsolute = true
  · rwa [Path.join, if_pos habsolute]
  · rw [Bool.not_eq_true] at habsolute
    by_cases htext : path.text = ""
    · obtain rfl : path = ⟨""⟩ := by cases path; simpa using htext
      have hjoined : Path.join ⟨""⟩ other = other := by
        rw [Path.join, if_neg (by simp [habsolute])]
        cases other
        exact congrArg Cythonizer.Path.mk String.empty_append
      rwa [hjoined]
    · rw [Path.fileName?, components_join_of_relative htext habsolute, List.getLast?_append,
        getLast?_of_fileName h, Option.some_or]
      exact congrArg some String.ofList_toList

end Names

end Cythonizer.Proofs.Path.Joining
