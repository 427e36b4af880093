import Cythonizer.Proofs.Text.Digits
import Cythonizer.Toml.Printer
import Cythonizer.Toml.Quoted

namespace Cythonizer.Proofs.Toml.Strings

open Cythonizer.Text.Hexadecimal
open Cythonizer.Toml.Blank
open Cythonizer.Toml.Printer
open Cythonizer.Toml.Quoted
open Cythonizer.Proofs.Text.Digits

section Closing

variable {q c : Char} {multi : Bool} {k : Nat} {more rest : List Char}

/-- How many quotes a string may hold in a row without an escape. -/
def limit (multi : Bool) : Nat :=
  if multi then 2 else 0

/-- The quotes that close a string. -/
def closer (q : Char) (multi : Bool) : List Char :=
  if multi then [q, q, q] else [q]

theorem closing?_replicate (hk : k ≤ limit multi) (hrest : rest.head? ≠ some q) :
    closing? { quote := q, goesOver := multi } (List.replicate k q ++ (closer q multi ++ rest)) =
      some (List.replicate k q, rest) := by
  cases multi with
  | false =>
      obtain rfl : k = 0 := by simpa [limit] using hk
      simp [closing?, closer]
  | true =>
      have hhead (count : Nat) : (rest.take count).takeWhile (· == q) = [] := by
        cases rest with
        | nil => simp
        | cons d rest =>
            have hd : d ≠ q := fun h => hrest (by simp [h])
            cases count <;> simp [hd]
      have hk : k = 0 ∨ k = 1 ∨ k = 2 := by
        have : k ≤ 2 := by simpa [limit] using hk
        omega
      rcases hk with rfl | rfl | rfl <;> simp [closing?, closer, List.replicate, hhead]

theorem closing?_cut (hk : k ≤ limit multi) (hc : c ≠ q) :
    closing? { quote := q, goesOver := multi } (List.replicate k q ++ c :: more) = none := by
  cases multi with
  | false =>
      obtain rfl : k = 0 := by simpa [limit] using hk
      simp [closing?, hc]
  | true =>
      have hk : k = 0 ∨ k = 1 ∨ k = 2 := by
        have : k ≤ 2 := by simpa [limit] using hk
        omega
      rcases hk with rfl | rfl | rfl <;> simp [closing?, hc, List.replicate]

end Closing

section Steps

variable {form : Form} {c d : Char} {fuel : Nat} {more rest : List Char}

theorem characters_closed {found : List Char × List Char} (h : closing? form rest = some found) :
    characters form (fuel + 1) rest = some found := by
  simp [characters, h]

theorem characters_plain (hclose : closing? form (c :: more) = none)
    (hescape : form.hasEscapes = false ∨ c ≠ '\\') (hc : isPlain c = true) :
    characters form (fuel + 1) (c :: more) =
      (characters form fuel more).map fun found => (c :: found.1, found.2) := by
  have hno : ¬(form.hasEscapes = true ∧ c = '\\') := by
    rintro ⟨h, rfl⟩
    simp [h] at hescape
  cases hfound : characters form fuel more <;> simp [characters, hclose, hno, hc, hfound]

theorem characters_newline (hclose : closing? form ('\n' :: more) = none)
    (hover : form.goesOver = true) :
    characters form (fuel + 1) ('\n' :: more) =
      (characters form fuel more).map fun found => ('\n' :: found.1, found.2) := by
  have hn : isPlain '\n' = false := rfl
  cases hfound : characters form fuel more <;>
    simp [characters, hclose, hn, hover, newline?, hfound]

theorem joined?_eq_none (form : Form) (more : List Char) (hblank : isBlank d = false)
    (hline : d ≠ '\n') (hreturn : d ≠ '\r') :
    joined? form (d :: more) = none := by
  have hskip : skipBlanks (d :: more) = d :: more := by simp [skipBlanks, hblank]
  have hnewline : newline? (d :: more) = none := by
    unfold newline?
    split <;> simp_all
  simp [joined?, hskip, hnewline]

theorem characters_escaped {multi : Bool}
    (hd : isBlank d = false ∧ d ≠ '\n' ∧ d ≠ '\r') (h : escaped? (d :: rest) = some (c, more)) :
    characters { quote := '"', goesOver := multi } (fuel + 1) ('\\' :: d :: rest) =
      (characters { quote := '"', goesOver := multi } fuel more).map fun found =>
        (c :: found.1, found.2) := by
  have hclose : closing? { quote := '"', goesOver := multi } ('\\' :: d :: rest) = none :=
    closing?_cut (k := 0) (by simp) (by decide)
  have hjoin := joined?_eq_none { quote := '"', goesOver := multi } rest hd.1 hd.2.1 hd.2.2
  cases hfound : characters { quote := '"', goesOver := multi } fuel more <;>
    simp [characters, hclose, Form.hasEscapes, hjoin, h, hfound]

theorem value?_hexDigit {n : Nat} (h : n < 16) : value? (hexDigit n) = some n := by
  have small : ∀ n < 16, value? (hexDigit n) = some n := by decide
  exact small n h

theorem escaped?_control (h : c.toNat < 256) :
    escaped? ('u' :: '0' :: '0' :: hexDigit (c.toNat / 16) :: hexDigit (c.toNat % 16) :: more) =
      some (c, more) := by
  have hcode := code?_control more (value?_hexDigit (n := c.toNat / 16) (by omega))
    (value?_hexDigit (n := c.toNat % 16) (by omega))
  have hscalar : scalar? c.toNat = some c := by
    have hvalid : c.toNat.isValidChar := c.valid
    rw [scalar?, if_pos hvalid, Char.ofNat_toNat]
  simp [escaped?, hcode, hscalar]

theorem characters_escape {multi : Bool} (hc : c ≠ '"') :
    characters { quote := '"', goesOver := multi } (fuel + 1) (escape multi c ++ more) =
      (characters { quote := '"', goesOver := multi } fuel more).map fun found =>
        (c :: found.1, found.2) := by
  have hclose : closing? { quote := '"', goesOver := multi } (c :: more) = none :=
    closing?_cut (k := 0) (by simp) hc
  unfold escape
  split
  · next h => subst h; exact characters_escaped (by decide) rfl
  split
  · next h =>
      subst h
      cases multi with
      | false => exact characters_escaped (by decide) rfl
      | true => exact characters_newline hclose rfl
  split
  · next h => subst h; exact characters_escaped (by decide) rfl
  split
  · next h => subst h; exact characters_escaped (by decide) rfl
  split
  · next h => exact characters_escaped (by decide) (by rw [← Char.ofNat_toNat c, h]; rfl)
  split
  · next h => exact characters_escaped (by decide) (by rw [← Char.ofNat_toNat c, h]; rfl)
  split
  · next hback _ _ _ _ _ h => exact characters_plain hclose (.inr hback) h
  · next h =>
      have hcode : c.toNat < 256 := by
        simp [isPlain] at h
        omega
      exact characters_escaped (by decide) (escaped?_control hcode)

end Steps

section DoubleQuotes

variable {text rest : List Char} {multi : Bool} {run fuel : Nat}

theorem escape_eq_cons (multi : Bool) {c : Char} (hc : c ≠ '"') :
    ∃ d more, escape multi c = d :: more ∧ d ≠ '"' ∧ d ≠ '\r' ∧ (c ≠ '\n' → d ≠ '\n') := by
  unfold escape
  repeat' split
  all_goals exact ⟨_, _, rfl, by simp_all⟩

/-- What is written is quotes alone, or few quotes and another character. -/
theorem escapeAll_begins (hrun : run ≤ limit multi) (text : List Char) :
    (∃ k, k + run ≤ limit multi ∧ text = List.replicate k '"' ∧
        escapeAll multi (limit multi) run text = List.replicate k '"') ∨
      ∃ k c more, k + run ≤ limit multi ∧ c ≠ '"' ∧
        escapeAll multi (limit multi) run text = List.replicate k '"' ++ c :: more := by
  induction text generalizing run with
  | nil => exact .inl ⟨0, by omega, rfl, rfl⟩
  | cons c text ih =>
      rw [escapeAll]
      by_cases hc : c = '"'
      · by_cases hlimit : run < limit multi
        · rw [if_pos hc, if_pos hlimit]
          have hnext : run + 1 ≤ limit multi := hlimit
          rcases ih hnext with ⟨k, hk, htext, hspelled⟩ | ⟨k, d, more, hk, hd, hspelled⟩
          · exact .inl ⟨k + 1, by omega, by rw [hc, htext, List.replicate_succ],
              by rw [hspelled, List.replicate_succ]⟩
          · exact .inr ⟨k + 1, d, more, by omega, hd,
              by rw [hspelled, List.replicate_succ, List.cons_append]⟩
        · rw [if_pos hc, if_neg hlimit]
          exact .inr ⟨0, '\\', _, by omega, by decide, rfl⟩
      · obtain ⟨d, more, hd, hne, -⟩ := escape_eq_cons multi hc
        rw [if_neg hc, hd]
        exact .inr ⟨0, d, _, by omega, hne, rfl⟩

theorem characters_escapeAll (hrun : run ≤ limit multi) (hrest : rest.head? ≠ some '"')
    (hfuel : text.length < fuel) :
    characters { quote := '"', goesOver := multi } fuel
        (escapeAll multi (limit multi) run text ++ (closer '"' multi ++ rest)) =
      some (text, rest) := by
  induction text generalizing run fuel with
  | nil =>
      obtain ⟨fuel, rfl⟩ := Nat.exists_eq_succ_of_ne_zero (Nat.ne_of_gt hfuel)
      exact characters_closed (closing?_replicate (k := 0) (Nat.zero_le (limit multi)) hrest)
  | cons c text ih =>
      obtain ⟨fuel, rfl⟩ := Nat.exists_eq_succ_of_ne_zero (Nat.ne_of_gt (Nat.zero_lt_of_lt hfuel))
      have hfuel : text.length < fuel := by simpa using hfuel
      rcases escapeAll_begins hrun (c :: text) with ⟨k, hk, htext, hspelled⟩ |
        ⟨k, d, more, hk, hd, hspelled⟩
      · rw [hspelled, htext]
        exact characters_closed (closing?_replicate (by omega) hrest)
      · have hclose : closing? { quote := '"', goesOver := multi }
            (escapeAll multi (limit multi) run (c :: text) ++ (closer '"' multi ++ rest)) =
              none := by
          rw [hspelled, List.append_assoc, List.cons_append, closing?_cut (by omega) hd]
        rw [escapeAll] at hclose ⊢
        by_cases hc : c = '"'
        · by_cases hlimit : run < limit multi
          · rw [if_pos hc, if_pos hlimit, List.cons_append] at hclose ⊢
            rw [characters_plain hclose (.inr (by decide)) rfl, ih (by omega) hfuel, hc,
              Option.map_some]
          · rw [if_pos hc, if_neg hlimit, List.cons_append, List.cons_append,
              characters_escaped (by decide) rfl, ih (by omega) hfuel, hc, Option.map_some]
        · rw [if_neg hc, List.append_assoc, characters_escape hc, ih (by omega) hfuel,
            Option.map_some]

end DoubleQuotes

section SingleQuotes

variable {text rest : List Char} {q : Char} {multi : Bool} {run fuel : Nat}

theorem begins_of_longestRun (h : longestRun q run text ≤ limit multi) :
    (∃ k, k + run ≤ limit multi ∧ text = List.replicate k q) ∨
      ∃ k c more, k + run ≤ limit multi ∧ c ≠ q ∧ text = List.replicate k q ++ c :: more := by
  induction text generalizing run with
  | nil => exact .inl ⟨0, by simpa [longestRun] using h, rfl⟩
  | cons c text ih =>
      rw [longestRun] at h
      by_cases hc : c = q
      · rw [if_pos hc] at h
        rcases ih h with ⟨k, hk, htext⟩ | ⟨k, d, more, hk, hd, htext⟩
        · exact .inl ⟨k + 1, by omega, by rw [hc, htext, List.replicate_succ]⟩
        · exact .inr ⟨k + 1, d, more, by omega, hd,
            by rw [hc, htext, List.replicate_succ, List.cons_append]⟩
      · rw [if_neg hc] at h
        exact .inr ⟨0, c, text, by omega, hc, rfl⟩

theorem characters_literal (hplain : ∀ c ∈ text, isPlain c = true ∨ multi = true ∧ c = '\n')
    (hrun : longestRun '\'' run text ≤ limit multi) (hrest : rest.head? ≠ some '\'')
    (hfuel : text.length < fuel) :
    characters { quote := '\'', goesOver := multi } fuel (text ++ (closer '\'' multi ++ rest)) =
      some (text, rest) := by
  induction text generalizing run fuel with
  | nil =>
      obtain ⟨fuel, rfl⟩ := Nat.exists_eq_succ_of_ne_zero (Nat.ne_of_gt hfuel)
      exact characters_closed (closing?_replicate (k := 0) (Nat.zero_le (limit multi)) hrest)
  | cons c text ih =>
      obtain ⟨fuel, rfl⟩ := Nat.exists_eq_succ_of_ne_zero (Nat.ne_of_gt (Nat.zero_lt_of_lt hfuel))
      have hfuel : text.length < fuel := by simpa using hfuel
      rcases begins_of_longestRun hrun with ⟨k, hk, htext⟩ | ⟨k, d, more, hk, hd, htext⟩
      · rw [htext]
        exact characters_closed (closing?_replicate (by omega) hrest)
      · have hclose : closing? { quote := '\'', goesOver := multi }
            (c :: text ++ (closer '\'' multi ++ rest)) = none := by
          rw [htext, List.append_assoc, List.cons_append, closing?_cut (by omega) hd]
        have hrun : ∃ run, longestRun '\'' run text ≤ limit multi := by
          rw [longestRun] at hrun
          split at hrun
          · exact ⟨_, hrun⟩
          · exact ⟨0, by omega⟩
        obtain ⟨run, hrun⟩ := hrun
        have hread := ih (fun d hd => hplain d (by simp [hd])) hrun hfuel
        rcases hplain c (by simp) with hc | ⟨hover, rfl⟩
        · rw [List.cons_append] at hclose ⊢
          rw [characters_plain hclose (.inl rfl) hc, hread, Option.map_some]
        · rw [List.cons_append] at hclose ⊢
          rw [characters_newline hclose hover, hread, Option.map_some]

end SingleQuotes

section Forms

variable {text rest : List Char} {q : Char}

/-- No quote follows a string. -/
def EndsString (rest : List Char) : Prop :=
  ∀ c ∈ rest.head?, c ≠ '"' ∧ c ≠ '\''

theorem EndsString.head?_ne (h : EndsString rest) (hq : q = '"' ∨ q = '\'') :
    rest.head? ≠ some q := by
  intro hrest
  obtain ⟨hdouble, hsingle⟩ := h q hrest
  rcases hq with rfl | rfl
  · exact hdouble rfl
  · exact hsingle rfl

theorem length_le_length_escapeAll (multi : Bool) (limit run : Nat) (text : List Char) :
    text.length ≤ (escapeAll multi limit run text).length := by
  induction text generalizing run with
  | nil => simp
  | cons c text ih =>
      have hone : 1 ≤ (escape multi c).length := by grind [escape]
      have hnext := ih (run + 1)
      have hfresh := ih 0
      rw [escapeAll]
      split
      · split <;> simp only [List.length_cons] <;> omega
      · simp only [List.length_append, List.length_cons]
        omega

theorem body_of_characters {form : Form} {spelled : List Char}
    (hlength : text.length ≤ spelled.length)
    (h : ∀ fuel, text.length < fuel → characters form fuel spelled = some (text, rest)) :
    body form spelled = some (String.ofList text, rest) := by
  rw [body, h _ (by omega), Option.map_some]

theorem string_of_line {spelled : List Char} (hq : q = '"' ∨ q = '\'')
    (h : ∀ more, spelled ≠ q :: q :: more) :
    string (q :: spelled) = body { quote := q, goesOver := false } spelled := by
  rw [string.eq_def]
  split
  · next more heq => exact absurd (List.cons.inj heq).2 ((List.cons.inj heq).1 ▸ h more)
  · next more heq => exact absurd (List.cons.inj heq).2 ((List.cons.inj heq).1 ▸ h more)
  · simp [lineString, hq]

theorem ne_triple {spelled : List Char} (hrest : rest.head? ≠ some q)
    (h : spelled = [] ∨ ∃ c more, c ≠ q ∧ spelled = c :: more) (more : List Char) :
    spelled ++ (q :: rest) ≠ q :: q :: more := by
  rintro heq
  rcases h with rfl | ⟨c, after, hc, rfl⟩
  · exact hrest (by simp [(List.cons.inj heq).2])
  · exact hc (List.cons.inj heq).1

theorem string_basic (hrest : EndsString rest) :
    string (basic text ++ rest) = some (String.ofList text, rest) := by
  have hhead := hrest.head?_ne (.inl rfl)
  have hbegins : escapeAll false 0 0 text = [] ∨
      ∃ c more, c ≠ '"' ∧ escapeAll false 0 0 text = c :: more := by
    rcases escapeAll_begins (Nat.zero_le (limit false)) text with ⟨k, hk, -, hspelled⟩ |
      ⟨k, c, more, hk, hc, hspelled⟩
    · obtain rfl : k = 0 := by simpa [limit] using hk
      exact .inl hspelled
    · obtain rfl : k = 0 := by simpa [limit] using hk
      exact .inr ⟨c, more, hc, hspelled⟩
  have hspelled : basic text ++ rest = '"' :: (escapeAll false 0 0 text ++ ('"' :: rest)) := by
    simp [basic]
  rw [hspelled, string_of_line (.inl rfl) (ne_triple hhead hbegins)]
  refine body_of_characters ?_ fun fuel hfuel => ?_
  · have hlength := length_le_length_escapeAll false 0 0 text
    simp only [List.length_append]
    omega
  · exact characters_escapeAll (Nat.zero_le (limit false)) hhead hfuel

theorem string_literal (hplain : ∀ c ∈ text, isPlain c = true) (hrun : longestRun '\'' 0 text = 0)
    (hrest : EndsString rest) :
      string (literal text ++ rest) = some (String.ofList text, rest) := by
  have hhead := hrest.head?_ne (.inr rfl)
  have hrun : longestRun '\'' 0 text ≤ limit false := Nat.le_of_eq hrun
  have hbegins : text = [] ∨ ∃ c more, c ≠ '\'' ∧ text = c :: more := by
    rcases begins_of_longestRun hrun with ⟨k, hk, htext⟩ | ⟨k, c, more, hk, hc, htext⟩
    · obtain rfl : k = 0 := by simpa [limit] using hk
      exact .inl htext
    · obtain rfl : k = 0 := by simpa [limit] using hk
      exact .inr ⟨c, more, hc, htext⟩
  have hspelled : literal text ++ rest = '\'' :: (text ++ ('\'' :: rest)) := by simp [literal]
  rw [hspelled, string_of_line (.inr rfl) (ne_triple hhead hbegins)]
  refine body_of_characters (by simp) fun fuel hfuel => ?_
  exact characters_literal (fun c hc => .inl (hplain c hc)) hrun hhead hfuel

theorem newline?_opening {spelled : List Char}
    (h : '\n' ∉ text → ∀ c ∈ spelled.head?, c ≠ '\n' ∧ c ≠ '\r') :
    (newline? (opening text ++ spelled)).getD (opening text ++ spelled) = spelled := by
  by_cases hline : '\n' ∈ text
  · simp [opening, hline, newline?]
  · have hnone : newline? spelled = none := by
      unfold newline?
      split
      · exact absurd rfl (h hline '\n' (by simp)).1
      · exact absurd rfl (h hline '\r' (by simp)).2
      · rfl
    simp [opening, hline, hnone]

theorem head?_escapeAll (hline : '\n' ∉ text) :
    ∀ c ∈ (escapeAll true 2 0 text ++ ('"' :: rest)).head?, c ≠ '\n' ∧ c ≠ '\r' := by
  cases text with
  | nil => simp [escapeAll]
  | cons c text =>
      by_cases hc : c = '"'
      · simp [escapeAll, hc]
      · obtain ⟨d, more, hd, -, hreturn, hnewline⟩ := escape_eq_cons true hc
        have hd' : d ≠ '\n' := hnewline fun h => hline (by simp [h])
        simp [escapeAll, hc, hd, hd', hreturn]

theorem string_basicLines (hrest : EndsString rest) :
    string (basicLines text ++ rest) = some (String.ofList text, rest) := by
  have hspelled : basicLines text ++ rest = '"' :: '"' :: '"' ::
      (opening text ++ (escapeAll true 2 0 text ++ ('"' :: '"' :: '"' :: rest))) := by
    simp [basicLines]
  rw [hspelled, string, newline?_opening head?_escapeAll]
  refine body_of_characters ?_ fun fuel hfuel => ?_
  · have hlength := length_le_length_escapeAll true 2 0 text
    simp only [List.length_append]
    omega
  · exact characters_escapeAll (Nat.zero_le (limit true)) (hrest.head?_ne (.inl rfl)) hfuel

theorem string_literalLines (hplain : ∀ c ∈ text, isPlain c = true ∨ c = '\n')
    (hrun : longestRun '\'' 0 text ≤ 2) (hrest : EndsString rest) :
    string (literalLines text ++ rest) = some (String.ofList text, rest) := by
  have hspelled : literalLines text ++ rest = '\'' :: '\'' :: '\'' ::
      (opening text ++ (text ++ ('\'' :: '\'' :: '\'' :: rest))) := by
    simp [literalLines]
  have hfirst : '\n' ∉ text →
      ∀ c ∈ (text ++ ('\'' :: '\'' :: '\'' :: rest)).head?, c ≠ '\n' ∧ c ≠ '\r' := by
    intro hline
    cases text with
    | nil => simp
    | cons c text =>
        rcases hplain c (by simp) with hc | rfl
        · have hreturn : c ≠ '\r' := by
            rintro rfl
            simp [isPlain] at hc
          have hnewline : c ≠ '\n' := fun h => hline (by simp [h])
          simp [hreturn, hnewline]
        · simp at hline
  rw [hspelled, string, newline?_opening hfirst]
  refine body_of_characters (by simp) fun fuel hfuel => ?_
  exact characters_literal (fun c hc => (hplain c hc).imp_right fun h => ⟨rfl, h⟩)
    (show _ ≤ limit true from hrun) (hrest.head?_ne (.inr rfl)) hfuel

theorem isPlain_of_codes (h : (text.any fun c => !isPlain c && c != '\n') = false) :
    ∀ c ∈ text, isPlain c = true ∨ c = '\n' := by
  intro c hc
  have hcode := List.any_eq_false.1 h c hc
  by_contra hno
  simp_all

theorem string_quote (hrest : EndsString rest) :
    string (quote text ++ rest) = some (String.ofList text, rest) := by
  unfold quote
  simp only []
  split
  · exact string_basic hrest
  split
  · next h =>
      simp only [Bool.and_eq_true, Bool.not_eq_true', beq_iff_eq] at h
      obtain ⟨⟨hcodes, hrun⟩, hlines⟩ := h
      refine string_literal (fun c hc => ?_) hrun hrest
      refine (isPlain_of_codes hcodes c hc).resolve_right ?_
      rintro rfl
      simp [hc] at hlines
  split
  · exact string_basicLines hrest
  split
  · next h =>
      simp only [Bool.and_eq_true, Bool.not_eq_true', decide_eq_true_eq] at h
      exact string_literalLines (isPlain_of_codes h.1) h.2 hrest
  split
  · exact string_basicLines hrest
  · exact string_basic hrest

end Forms

end Cythonizer.Proofs.Toml.Strings
