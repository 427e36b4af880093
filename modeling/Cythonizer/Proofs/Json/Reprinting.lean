import Cythonizer.Json.Printer
import Cythonizer.Json.Reader
import Cythonizer.Proofs.Text.Digits

/-!
Reading what a value is written as. A value whose numbers are whole is read back from its text,
whatever its strings hold, exactly if it does not go too deep.
-/

namespace Cythonizer.Proofs.Json.Reprinting

open Cythonizer.Json.Printer
open Cythonizer.Json.Reader
open Cythonizer.Json.Value
open Cythonizer.Text.Hexadecimal
open Cythonizer.Proofs.Text.Digits

mutual

/-- No number of a value has digits behind a point. -/
def IsWhole : Value → Prop
  | .number n => n.scale = 0
  | .array vs => AreWhole vs
  | .object fs => HasWholeFields fs
  | _ => True

def AreWhole : List Value → Prop
  | [] => True
  | v :: vs => IsWhole v ∧ AreWhole vs

def HasWholeFields : List Field → Prop
  | [] => True
  | .field _ v :: fs => IsWhole v ∧ HasWholeFields fs

end

mutual

/-- How many brackets of a value stand inside one another. -/
def depth : Value → Nat
  | .array vs => depthOfElements vs + 1
  | .object fs => depthOfFields fs + 1
  | _ => 0

def depthOfElements : List Value → Nat
  | [] => 0
  | v :: vs => max (depth v) (depthOfElements vs)

def depthOfFields : List Field → Nat
  | [] => 0
  | .field _ v :: fs => max (depth v) (depthOfFields fs)

end

theorem depthOfElements_le_iff {vs : List Value} {n : Nat} :
    depthOfElements vs ≤ n ↔ ∀ v ∈ vs, depth v ≤ n := by
  induction vs with
  | nil => simp [depthOfElements]
  | cons v vs ih => simp [depthOfElements, ih]

theorem depthOfFields_le_iff {fs : List Field} {n : Nat} :
    depthOfFields fs ≤ n ↔ ∀ f ∈ fs, depth f.value ≤ n := by
  induction fs with
  | nil => simp [depthOfFields]
  | cons f fs ih =>
      obtain ⟨name, v⟩ := f
      simp [depthOfFields, ih, Field.value]

@[simp] theorem isWhole_null : IsWhole .null := trivial

@[simp] theorem isWhole_boolean (b : Bool) : IsWhole (.boolean b) := trivial

@[simp] theorem isWhole_string (text : String) : IsWhole (.string text) := trivial

@[simp] theorem isWhole_ofNat (n : Nat) : IsWhole (ofNat n) := rfl

theorem areWhole_iff {vs : List Value} : AreWhole vs ↔ ∀ v ∈ vs, IsWhole v := by
  induction vs with
  | nil => simp [AreWhole]
  | cons v vs ih => simp [AreWhole, ih]

theorem hasWholeFields_iff {fs : List Field} :
    HasWholeFields fs ↔ ∀ f ∈ fs, IsWhole f.value := by
  induction fs with
  | nil => simp [HasWholeFields]
  | cons f fs ih =>
      obtain ⟨name, v⟩ := f
      simp [HasWholeFields, ih, Field.value]

section Strings

theorem value?_hexDigit {n : Nat} (h : n < 16) : value? (hexDigit n) = some n := by
  have small : ∀ n < 16, value? (hexDigit n) = some n := by decide
  exact small n h

variable {c : Char} {fuel : Nat} {more : List Char}

theorem escaped_control (h : c.toNat < 32) :
    escaped ('u' :: '0' :: '0' :: hexDigit (c.toNat / 16) :: hexDigit (c.toNat % 16) :: more) =
      some (c, more) := by
  have hcode := code?_control more (value?_hexDigit (n := c.toNat / 16) (by omega))
    (value?_hexDigit (n := c.toNat % 16) (by omega))
  have hlow : c.toNat < 0xD800 := by omega
  simp [escaped, unicode, hcode, hlow, Char.ofNat_toNat]

theorem characters_escaped {rest : List Char} (h : escaped rest = some (c, more)) :
    characters (fuel + 1) ('\\' :: rest) =
      (characters fuel more).map fun found => (c :: found.1, found.2) := by
  cases hfound : characters fuel more <;> simp [characters, h, hfound]

theorem characters_plain (hquote : c ≠ '"') (hback : c ≠ '\\') (h : ¬ c.toNat < 32) :
    characters (fuel + 1) (c :: more) =
      (characters fuel more).map fun found => (c :: found.1, found.2) := by
  rw [characters.eq_def]
  cases hfound : characters fuel more <;> simp [h, hfound]

theorem characters_escape :
    characters (fuel + 1) (escape c ++ more) =
      (characters fuel more).map fun found => (c :: found.1, found.2) := by
  unfold escape
  split
  · next h =>
      subst h
      exact characters_escaped rfl
  split
  · next h =>
      subst h
      exact characters_escaped rfl
  split
  · next h =>
      subst h
      exact characters_escaped rfl
  split
  · next h =>
      subst h
      exact characters_escaped rfl
  split
  · next h =>
      subst h
      exact characters_escaped rfl
  split
  · next h => exact characters_escaped (by rw [← Char.ofNat_toNat c, h]; rfl)
  split
  · next h => exact characters_escaped (by rw [← Char.ofNat_toNat c, h]; rfl)
  split
  · next h => exact characters_escaped (escaped_control h)
  · exact characters_plain ‹_› ‹_› ‹_›

theorem characters_flatMap_escape {text rest : List Char} (h : text.length < fuel) :
    characters fuel (text.flatMap escape ++ '"' :: rest) = some (text, rest) := by
  induction text generalizing fuel with
  | nil =>
      cases fuel with
      | zero => simp at h
      | succ fuel => simp [characters]
  | cons c text ih =>
      cases fuel with
      | zero => simp at h
      | succ fuel =>
          rw [List.flatMap_cons, List.append_assoc, characters_escape,
            ih (by simpa using h), Option.map_some]

theorem length_le_length_flatMap_escape (text : List Char) :
    text.length ≤ (text.flatMap escape).length := by
  induction text with
  | nil => simp
  | cons c text ih =>
      have hc : 1 ≤ (escape c).length := by grind [escape]
      simp only [List.flatMap_cons, List.length_append, List.length_cons]
      omega

theorem string_quote {text : String} {rest : List Char} (h : (quote text).length ≤ fuel) :
    string fuel (quote text ++ rest) = some (text, rest) := by
  have hlength := length_le_length_flatMap_escape text.toList
  have hfuel : text.toList.length < fuel := by
    simp only [quote, List.cons_append, List.length_cons, List.length_append] at h
    omega
  simp [quote, string, characters_flatMap_escape hfuel]

end Strings

section Numbers

/-- What may stand behind a number without going on with it. -/
def Ends (rest : List Char) : Prop :=
  ∀ c ∈ rest.head?, c.isDigit = false ∧ c ≠ '.' ∧ c ≠ 'e' ∧ c ≠ 'E'

theorem natOf_toDigits (n : Nat) : natOf (Nat.toDigits 10 n) = n :=
  Nat.ofDigitChars_toDigits (by decide) (by decide)

variable {rest : List Char}

theorem digits_toDigits (n : Nat) (h : Ends rest) :
    digits (Nat.toDigits 10 n ++ rest) = (Nat.toDigits 10 n, rest) := by
  have inside : ∀ c ∈ Nat.toDigits 10 n, c.isDigit = true := fun c hc => isDigit_of_mem_toDigits hc
  have behind : ∀ c ∈ rest.head?, c.isDigit = false := fun c hc => (h c hc).1
  rw [digits, takeWhile_front inside behind, dropWhile_front inside behind]

theorem exponent_of_ends (h : Ends rest) : exponent rest = some (0, rest) := by
  cases rest with
  | nil => rfl
  | cons c rest =>
      obtain ⟨-, -, he, hE⟩ := h c (by simp)
      simp [exponent, he, hE]

theorem unsigned_toDigits (n : Nat) (h : Ends rest) :
    unsigned (Nat.toDigits 10 n ++ rest) = some ({ digits := n, scale := 0 }, rest) := by
  have hne : Nat.toDigits 10 n ≠ [] := Nat.toDigits_ne_nil
  have hzero : ¬((Nat.toDigits 10 n).head? = some '0' ∧ 1 < (Nat.toDigits 10 n).length) := by
    rintro ⟨hhead, hlength⟩
    rw [toDigits_eq_of_head? hhead] at hlength
    simp at hlength
  have hpoint : ∀ more, rest ≠ '.' :: more := by
    rintro more rfl
    exact (h '.' (by simp)).2.1 rfl
  rw [unsigned, digits_toDigits n h]
  split
  · next heq => simp_all
  · next heq =>
      obtain ⟨rfl, rfl⟩ := Prod.mk.inj heq
      rw [if_neg hzero]
      split
      · next more => exact absurd rfl (hpoint more)
      · simp [exponent_of_ends h, natOf_toDigits]

theorem numberText_of_whole {n : Number} (h : n.scale = 0) :
    numberText n = integerText n.digits := by
  simp [numberText, h, integerText, Nat.toString_eq_repr, Nat.repr_eq_ofList_toDigits]

theorem number_of_isDigit {text : List Char} (h : ∀ c ∈ text.head?, c.isDigit = true) :
    number text = unsigned text := by
  rw [number.eq_def]
  split
  · exact absurd (h '-' (by simp)) (by decide)
  · rfl

theorem number_numberText {n : Number} (hn : n.scale = 0) (h : Ends rest) :
    number (numberText n ++ rest) = some (n, rest) := by
  obtain ⟨digits, scale⟩ := n
  subst hn
  rw [numberText_of_whole rfl]
  by_cases hneg : digits < 0
  · simp [integerText, hneg, number, unsigned_toDigits _ h, abs_of_neg hneg]
  · have hdigits : (digits.natAbs : Int) = digits := by omega
    have hfirst : ∀ c ∈ (Nat.toDigits 10 digits.natAbs ++ rest).head?, c.isDigit = true := by
      intro c hc
      rw [List.head?_append_of_ne_nil _ Nat.toDigits_ne_nil] at hc
      exact isDigit_of_mem_toDigits (List.mem_of_mem_head? hc)
    simp only [integerText, hneg, if_false, List.nil_append]
    rw [number_of_isDigit hfirst, unsigned_toDigits _ h, hdigits]

end Numbers

section Values

variable {rest : List Char} {fuel : Nat}

theorem skip_cons {c : Char} {more : List Char} (h : isSpace c = false) :
    skip (c :: more) = c :: more := by
  simp [skip, h]

theorem ends_cons {c : Char} {more : List Char} (h : c = ',' ∨ c = ']' ∨ c = '\x7d') :
    Ends (c :: more) := by
  rcases h with rfl | rfl | rfl <;> simp [Ends]

theorem isSpace_of_isDigit {c : Char} (h : c = '-' ∨ c.isDigit = true) : isSpace c = false := by
  rcases h with rfl | h
  · rfl
  · by_contra hspace
    simp only [isSpace, Bool.not_eq_false, Bool.or_eq_true, beq_iff_eq] at hspace
    rcases hspace with ((rfl | rfl) | rfl) | rfl <;> simp at h

theorem compact_eq_cons {v : Value} (h : IsWhole v) :
    ∃ c more, compact v = c :: more ∧ isSpace c = false ∧ c ≠ ']' := by
  cases v with
  | null => exact ⟨_, _, rfl, rfl, by decide⟩
  | boolean b => cases b <;> exact ⟨_, _, rfl, rfl, by decide⟩
  | number n =>
      obtain ⟨c, more, hc, hfirst⟩ := integerText_eq_cons n.digits
      refine ⟨c, more, by rw [compact, numberText_of_whole h, hc], isSpace_of_isDigit hfirst, ?_⟩
      rintro rfl
      simp at hfirst
  | string text => exact ⟨_, _, rfl, rfl, by decide⟩
  | array vs => exact ⟨_, _, by rw [compact], rfl, by decide⟩
  | object fs => exact ⟨_, _, by rw [compact], rfl, by decide⟩

theorem compactElements_cons_cons (v w : Value) (vs : List Value) :
    compactElements (v :: w :: vs) = compact v ++ ',' :: compactElements (w :: vs) := by
  rw [compactElements]
  simp

theorem compactFields_cons_cons (name : String) (v : Value) (f : Field) (fs : List Field) :
    compactFields (.field name v :: f :: fs) =
      quote name ++ ':' :: (compact v ++ ',' :: compactFields (f :: fs)) := by
  rw [compactFields]
  · simp
  · simp

theorem compactFields_singleton (name : String) (v : Value) :
    compactFields [.field name v] = quote name ++ ':' :: (compact v ++ ['\x7d']) := by
  simp [compactFields]

theorem compactElements_eq_cons {v : Value} (h : IsWhole v) (vs : List Value) :
    ∃ c more, compactElements (v :: vs) = c :: more ∧ isSpace c = false ∧ c ≠ ']' := by
  obtain ⟨c, more, hc, hspace, hne⟩ := compact_eq_cons h
  cases vs with
  | nil => exact ⟨c, _, by rw [compactElements, hc]; rfl, hspace, hne⟩
  | cons w vs => exact ⟨c, _, by rw [compactElements_cons_cons, hc]; rfl, hspace, hne⟩

theorem compactFields_eq_cons (f : Field) (fs : List Field) :
    ∃ more, compactFields (f :: fs) = '"' :: more := by
  obtain ⟨name, v⟩ := f
  cases fs with
  | nil => exact ⟨_, compactFields_singleton name v⟩
  | cons f fs => exact ⟨_, compactFields_cons_cons name v f fs⟩

theorem value_number {n : Number} {room : Nat} (hn : n.scale = 0) (h : Ends rest) :
    value (fuel + 1) room (numberText n ++ rest) = some (.number n, rest) := by
  obtain ⟨c, more, hc, hfirst⟩ := integerText_eq_cons n.digits
  have hnumber := number_numberText hn h
  rw [numberText_of_whole hn, hc, List.cons_append] at hnumber ⊢
  rw [value, skip_cons (isSpace_of_isDigit hfirst)]
  split <;> simp_all

theorem skip_quote (text : String) : skip (quote text ++ rest) = quote text ++ rest :=
  skip_cons rfl

mutual

/-- A value is read back if there is room for its brackets. Fuel of twice the length is enough, for
each level of brackets takes two steps. -/
theorem value_compact : ∀ (v : Value) (fuel room : Nat) (rest : List Char), IsWhole v → Ends rest →
    2 * (compact v).length ≤ fuel →
      value fuel room (compact v ++ rest) = if depth v ≤ room then some (v, rest) else none
  | v, 0, room, rest, hv, _, hfuel => by
      obtain ⟨c, more, hc, -⟩ := compact_eq_cons hv
      simp [hc] at hfuel
  | .null, fuel + 1, room, rest, _, _, _ => by simp [compact, value, skip, isSpace, depth]
  | .boolean true, fuel + 1, room, rest, _, _, _ => by
      simp [compact, value, skip, isSpace, depth]
  | .boolean false, fuel + 1, room, rest, _, _, _ => by
      simp [compact, value, skip, isSpace, depth]
  | .number n, fuel + 1, room, rest, hv, hrest, _ => by
      rw [compact, value_number hv hrest]
      simp [depth]
  | .string text, fuel + 1, room, rest, _, _, hfuel => by
      rw [compact] at hfuel ⊢
      have hstring : string (fuel + 1) (quote text ++ rest) = some (text, rest) :=
        string_quote (by omega)
      rw [quote, List.cons_append, List.cons_append] at hstring ⊢
      rw [value, skip_cons rfl]
      simp only [hstring, Option.map_some, depth, Nat.zero_le, if_true]
  | .array [], fuel + 1, room, rest, _, _, _ => by
      cases room <;>
        simp [compact, compactElements, value, skip, isSpace, depth, depthOfElements]
  | .array (v :: vs), fuel + 1, 0, rest, _, _, _ => by
      simp [compact, value, skip, isSpace, depth]
  | .array (v :: vs), fuel + 1, room + 1, rest, hv, _, hfuel => by
      simp only [compact, List.length_cons] at hfuel
      have helements := elements_compactElements v vs fuel room rest hv (by omega)
      obtain ⟨c, more, hc, hspace, hne⟩ := compactElements_eq_cons hv.1 vs
      rw [hc, List.cons_append] at helements
      rw [compact, hc, List.cons_append, value, skip_cons rfl]
      simp only [List.cons_append, skip_cons hspace, Nat.add_one_ne_zero, if_false,
        Nat.add_sub_cancel, depth, Nat.add_le_add_iff_right]
      split
      · next heq => exact absurd (List.cons.inj heq).1 hne
      · rw [helements]
        split <;> rfl
  | .object [], fuel + 1, room, rest, _, _, _ => by
      cases room <;> simp [compact, compactFields, value, skip, isSpace, depth, depthOfFields]
  | .object (f :: fs), fuel + 1, 0, rest, _, _, _ => by
      simp [compact, value, skip, isSpace, depth]
  | .object (f :: fs), fuel + 1, room + 1, rest, hv, _, hfuel => by
      simp only [compact, List.length_cons] at hfuel
      have hfields := fields_compactFields f fs fuel room rest hv (by omega)
      obtain ⟨more, hc⟩ := compactFields_eq_cons f fs
      rw [hc, List.cons_append] at hfields
      rw [compact, hc, List.cons_append, value, skip_cons rfl]
      by_cases hdepth : depthOfFields (f :: fs) ≤ room <;>
        simp [skip_cons (c := '"') rfl, hfields, depth, hdepth]

theorem elements_compactElements : ∀ (v : Value) (vs : List Value) (fuel room : Nat)
    (rest : List Char), AreWhole (v :: vs) → 2 * (compactElements (v :: vs)).length ≤ fuel →
      elements fuel room (compactElements (v :: vs) ++ rest) =
        if depthOfElements (v :: vs) ≤ room then some (v :: vs, rest) else none
  | v, vs, 0, room, rest, h, hfuel => by
      obtain ⟨c, more, hc, -⟩ := compactElements_eq_cons h.1 vs
      simp [hc] at hfuel
  | v, [], fuel + 1, room, rest, h, hfuel => by
      simp only [compactElements, List.length_append, List.length_singleton] at hfuel
      have hv :=
        value_compact v fuel room (']' :: rest) h.1 (ends_cons (.inr (.inl rfl))) (by omega)
      simp only [compactElements, elements, List.append_assoc, List.singleton_append, hv,
        depthOfElements,
        Nat.max_zero]
      split <;> simp [skip_cons (c := ']') rfl]
  | v, w :: vs, fuel + 1, room, rest, h, hfuel => by
      rw [compactElements_cons_cons] at hfuel ⊢
      simp only [List.length_append, List.length_cons] at hfuel
      have hv := value_compact v fuel room (',' :: (compactElements (w :: vs) ++ rest)) h.1
        (ends_cons (.inl rfl)) (by omega)
      have hvs := elements_compactElements w vs fuel room rest h.2 (by omega)
      simp only [depthOfElements.eq_2 v, max_le_iff, List.append_assoc,
        List.cons_append, elements, hv]
      by_cases hfirst : depth v ≤ room <;> by_cases hrest : depthOfElements (w :: vs) ≤ room <;>
        simp [hvs, hfirst, hrest, skip_cons (c := ',') rfl]

theorem fields_compactFields : ∀ (f : Field) (fs : List Field) (fuel room : Nat) (rest : List Char),
    HasWholeFields (f :: fs) → 2 * (compactFields (f :: fs)).length ≤ fuel →
      fields fuel room (compactFields (f :: fs) ++ rest) =
        if depthOfFields (f :: fs) ≤ room then some (f :: fs, rest) else none
  | f, fs, 0, room, rest, _, hfuel => by
      obtain ⟨more, hc⟩ := compactFields_eq_cons f fs
      simp [hc] at hfuel
  | .field name v, [], fuel + 1, room, rest, h, hfuel => by
      rw [compactFields_singleton] at hfuel ⊢
      simp only [List.length_append, List.length_cons] at hfuel
      have hname : string (fuel + 1) (quote name ++ ':' :: (compact v ++ '\x7d' :: rest)) =
          some (name, ':' :: (compact v ++ '\x7d' :: rest)) :=
        string_quote (by omega)
      have hv := value_compact v fuel room ('\x7d' :: rest) h.1
        (ends_cons (.inr (.inr rfl))) (by omega)
      by_cases hdepth : depth v ≤ room <;>
        simp [fields, skip_quote, hname, hv, depthOfFields, hdepth, skip_cons (c := ':') rfl,
          skip_cons (c := '\x7d') rfl]
  | .field name v, f :: fs, fuel + 1, room, rest, h, hfuel => by
      rw [compactFields_cons_cons] at hfuel ⊢
      simp only [List.length_append, List.length_cons] at hfuel
      have hname : string (fuel + 1)
            (quote name ++ ':' :: (compact v ++ ',' :: (compactFields (f :: fs) ++ rest))) =
          some (name, ':' :: (compact v ++ ',' :: (compactFields (f :: fs) ++ rest))) :=
        string_quote (by omega)
      have hv := value_compact v fuel room (',' :: (compactFields (f :: fs) ++ rest)) h.1
        (ends_cons (.inl rfl)) (by omega)
      have hfs := fields_compactFields f fs fuel room rest h.2 (by omega)
      simp only [depthOfFields.eq_2 name v, max_le_iff]
      by_cases hfirst : depth v ≤ room <;> by_cases hrest : depthOfFields (f :: fs) ≤ room <;>
        simp [fields, skip_quote, hname, hv, hfs, hfirst, hrest, skip_cons (c := ':') rfl,
          skip_cons (c := ',') rfl]

end

theorem read_compact {v : Value} (h : IsWhole v) :
    Cythonizer.Json.Reader.read (compact v) = if depth v ≤ nesting then some v else none := by
  have hv := value_compact v (2 * (compact v).length + 2) nesting [] h (by simp [Ends]) (by omega)
  rw [List.append_nil] at hv
  unfold Cythonizer.Json.Reader.read
  rw [hv]
  split <;> rfl

end Values

end Cythonizer.Proofs.Json.Reprinting
