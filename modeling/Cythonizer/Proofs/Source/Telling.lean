import Cythonizer.Proofs.Source.Events
import Cythonizer.Proofs.Source.Lexemes
import Cythonizer.Source.Branches

/-!
What readers tell, said in trees. `Tells before x after` says that from every cursor with `before`
each way on that `x` finds tells some trees, and `after` holds of its result, its cursor and these
trees. The rules follow the way readers are put together, so that a reader is described by the
readers in it.
-/

namespace Cythonizer.Proofs.Source.Telling

open Cythonizer.Source.Branches
open Cythonizer.Source.Reader
open Cythonizer.Source.Gaps
open Cythonizer.Source.Keywords
open Cythonizer.Source.Lexemes
open Cythonizer.Source.Trees
open Cythonizer.Proofs.Source.Events
open Cythonizer.Proofs.Source.Gaps
open Cythonizer.Proofs.Source.Lexemes

variable {source : List Char} {α β σ : Type}

/-- A lexeme that was looked at describes the text that follows. -/
structure Fits (next : Next) (rest : List Char) : Prop where
  gaps : GapsFit next.lexeme.gaps rest
  text : next.text = (rest.drop (widthOf next.lexeme.gaps)).take next.lexeme.width
  layout : isLayout next.lexeme.category = true → next.lexeme.width = 0
  name : next.lexeme.category = .name → IsIdentifier next.text
  visible : isWritten next.lexeme.category = true → IsVisible next.text

/-- The counts of a cursor are right, and so is the lexeme ahead. -/
structure Valid (c : Cursor source) : Prop where
  size : c.size = c.log.length
  ahead : ∀ next, c.ahead = some next → Fits next c.rest

theorem valid_start (source : List Char) : Valid (Cursor.start source) :=
  ⟨rfl, fun _ h => by cases h⟩

/-- Between two cursors these trees were told. -/
structure Told (c c' : Cursor source) (ts : List Tree) : Prop where
  valid : Valid c'
  log : c'.log = (eventsOfAll ts).reverse ++ c.log

theorem Told.refl {c : Cursor source} (h : Valid c) : Told c c [] :=
  ⟨h, rfl⟩

theorem Told.trans {c₁ c₂ c₃ : Cursor source} {ts us : List Tree} (h₁ : Told c₁ c₂ ts)
    (h₂ : Told c₂ c₃ us) : Told c₁ c₃ (ts ++ us) where
  valid := h₂.valid
  log := by rw [h₂.log, h₁.log, eventsOfAll_append, List.reverse_append, List.append_assoc]

theorem Told.unique {c c' : Cursor source} {ts us : List Tree} (h₁ : Told c c' ts)
    (h₂ : Told c c' us) : ts = us := by
  have hevents : eventsOfAll ts = eventsOfAll us :=
    List.reverse_inj.mp (List.append_cancel_right (h₁.log.symm.trans h₂.log))
  rw [← ofEvents_eventsOfAll ts, hevents, ofEvents_eventsOfAll]

/-- A kind of readers of which the ways on are known. -/
class Outcomes (source : outParam (List Char)) (m : Type → Type) [Monad m] [Reading source m] where
  outcomes {α : Type} : m α → Cursor source → List (α × Cursor source)
  mem_pure {α : Type} (a : α) (c : Cursor source) (way : α × Cursor source) :
    way ∈ outcomes (pure a) c ↔ way = (a, c)
  mem_bind {α β : Type} (x : m α) (f : α → m β) (c : Cursor source) (way : β × Cursor source) :
    way ∈ outcomes (x >>= f) c ↔
      ∃ first ∈ outcomes x c, way ∈ outcomes (f first.1) first.2
  mem_step {α : Type} (p : Parser source α) (c : Cursor source) (way : α × Cursor source) :
    way ∈ outcomes (Reading.step p) c ↔ p c = .ok way

export Outcomes (outcomes)

instance : Outcomes source (Parser source) where
  outcomes p c := match p c with
    | .ok way => [way]
    | .error _ => []
  mem_pure a c way := by
    change way ∈ [(a, c)] ↔ way = (a, c)
    simp
  mem_bind x f c way := by
    change way ∈ (match Except.bind (x c) (fun first => f first.1 first.2) with
      | .ok way => [way]
      | .error _ => []) ↔ _
    cases h : x c <;> simp [Except.bind]
  mem_step p c way := by
    change way ∈ (match p c with
      | .ok way => [way]
      | .error _ => []) ↔ _
    cases h : p c <;> simp [eq_comm]

theorem mem_outcomes_iff (p : Parser source α) (c : Cursor source) (way : α × Cursor source) :
    way ∈ outcomes p c ↔ p c = .ok way :=
  Outcomes.mem_step p c way

theorem found_bind (ways : Ways source α) (next : α → Branching source β)
    (way : β × Cursor source) :
    way ∈ (ways.bind next).found ↔ ∃ first ∈ ways.found, way ∈ (next first.1 first.2).found := by
  have fold (found : List (α × Cursor source)) (init : Ways source β) :
      way ∈ (found.foldl (fun ways (first : α × Cursor source) =>
        ways.append (next first.1 first.2)) init).found ↔
      way ∈ init.found ∨ ∃ first ∈ found, way ∈ (next first.1 first.2).found := by
    induction found generalizing init with
    | nil => simp
    | cons first found ih =>
        rw [List.foldl_cons, ih]
        simp [Ways.append, or_assoc]
  unfold Ways.bind
  split
  · simp
  · exact (fold _ _).trans (by simp)

instance : Outcomes source (Branching source) where
  outcomes reader c := (reader c).found
  mem_pure a c way := by
    change way ∈ [(a, c)] ↔ way = (a, c)
    simp
  mem_bind x f c way := found_bind (x c) f way
  mem_step p c way := by
    change way ∈ (match p c with
      | .ok way => ({ found := [way], failed := none } : Ways source _)
      | .error left => { found := [], failed := some left }).found ↔ _
    cases h : p c <;> simp [eq_comm]

theorem told_shift_gap {c : Cursor source} (h : Valid c) (g : Gap) (width : Nat) :
    Told c (c.shift (.gap g) (fun _ => rfl) width) [.gap g (c.rest.take width)] where
  valid := ⟨by simp [Cursor.shift, h.size], fun next hnext => by cases hnext⟩
  log := rfl

theorem told_shift_leaf {c : Cursor source} (h : Valid c) (l : Leaf) (width : Nat) :
    Told c (c.shift (.leaf l) (fun _ => rfl) width) [.leaf l (c.rest.take width)] where
  valid := ⟨by simp [Cursor.shift, h.size], fun next hnext => by cases hnext⟩
  log := rfl

/-- Trees that are gaps, each with a text of its kind. -/
def AreGaps (ts : List Tree) : Prop :=
  ∀ t ∈ ts, ∃ g text, t = .gap g text ∧ Spells g text

theorem AreGaps.nil : AreGaps [] := by
  simp [AreGaps]

theorem AreGaps.cons {g : Gap} {text : List Char} {ts : List Tree} (h : Spells g text)
    (hts : AreGaps ts) : AreGaps (.gap g text :: ts) := by
  intro t ht
  rcases List.mem_cons.mp ht with rfl | ht
  · exact ⟨g, text, rfl, h⟩
  · exact hts t ht

theorem told_pass {c : Cursor source} (h : Valid c) {gaps : List (Gap × Nat)}
    (hgaps : GapsFit gaps c.rest) :
    ∃ ts, Told c (c.pass gaps) ts ∧ AreGaps ts ∧ (c.pass gaps).layout = c.layout ∧
      (c.pass gaps).rest = c.rest.drop (widthOf gaps) := by
  induction gaps generalizing c with
  | nil => exact ⟨[], Told.refl h, AreGaps.nil, rfl, rfl⟩
  | cons gap gaps ih =>
      obtain ⟨g, width⟩ := gap
      have first := told_shift_gap h g width
      obtain ⟨ts, htold, hts, hlayout, hrest⟩ := ih first.valid hgaps.2
      refine ⟨_, first.trans htold, AreGaps.cons hgaps.1 hts, hlayout, ?_⟩
      calc
        _ = (c.rest.drop width).drop (widthOf gaps) := hrest
        _ = c.rest.drop (widthOf ((g, width) :: gaps)) := by simp [widthOf]

/-- From every cursor with `before`, each way on that the reader finds tells trees with `after`. -/
def Tells {m : Type → Type} [Monad m] [Reading source m] [Outcomes source m]
    (before : Cursor source → Prop) (x : m α)
    (after : α → Cursor source → List Tree → Prop) : Prop :=
  ∀ c, Valid c → before c → ∀ way ∈ outcomes x c, ∃ ts, Told c way.2 ts ∧ after way.1 way.2 ts

abbrev anywhere : Cursor source → Prop := fun _ => True

/-- At the cursors before a lexeme that was looked at. -/
def facing (next : Next) : Cursor source → Prop := fun c => c.ahead = some next

/-- The lexeme without the gaps before it. -/
def bare (next : Next) : Next :=
  { next with lexeme.gaps := [] }

section

variable {m : Type → Type} [Monad m] [Reading source m] [Outcomes source m]
variable {before : Cursor source → Prop} {after : α → Cursor source → List Tree → Prop}

theorem Tells.mono {before' : Cursor source → Prop} {after' : α → Cursor source → List Tree → Prop}
    {x : m α} (h : Tells before x after) (hbefore : ∀ c, before' c → before c)
    (hafter : ∀ a c ts, after a c ts → after' a c ts) : Tells before' x after' := by
  intro c hc hbefore' way hway
  obtain ⟨ts, htold, hts⟩ := h c hc (hbefore c hbefore') way hway
  exact ⟨ts, htold, hafter _ _ _ hts⟩

theorem Tells.and {after' : α → Cursor source → List Tree → Prop} {x : m α}
    (h : Tells before x after) (h' : Tells before x after') :
    Tells before x fun a c ts => after a c ts ∧ after' a c ts := by
  intro c hc hbefore way hway
  obtain ⟨ts, htold, hts⟩ := h c hc hbefore way hway
  obtain ⟨us, htold', hus⟩ := h' c hc hbefore way hway
  obtain rfl := htold.unique htold'
  exact ⟨ts, htold, hts, hus⟩

theorem tells_pure {a : α} (h : ∀ c, before c → after a c []) :
    Tells before (pure a : m α) after := by
  intro c hc hbefore way hway
  obtain rfl := (Outcomes.mem_pure a c way).mp hway
  exact ⟨[], Told.refl hc, h c hbefore⟩

theorem tells_bind {between : α → Cursor source → List Tree → Prop}
    {after : β → Cursor source → List Tree → Prop} {x : m α} {f : α → m β}
    (hx : Tells before x between)
    (hf : ∀ a ts, Tells (fun c => between a c ts) (f a) fun b c us => after b c (ts ++ us)) :
    Tells before (x >>= f) after := by
  intro c hc hbefore way hway
  obtain ⟨first, hfirst, hway⟩ := (Outcomes.mem_bind x f c way).mp hway
  obtain ⟨ts, htold, hts⟩ := hx c hc hbefore first hfirst
  obtain ⟨us, htold', hus⟩ := hf first.1 ts first.2 htold.valid hts way hway
  exact ⟨ts ++ us, htold.trans htold', hus⟩

theorem tells_step {p : Parser source α} (h : Tells before p after) :
    Tells before (Reading.step p : m α) after := by
  intro c hc hbefore way hway
  have hp := (Outcomes.mem_step p c way).mp hway
  exact h c hc hbefore way ((mem_outcomes_iff p c way).mpr hp)

theorem tells_of_forall {p : Parser source α}
    (h : ∀ c, Valid c → before c → ∀ a c', p c = .ok (a, c') →
      ∃ ts, Told c c' ts ∧ after a c' ts) : Tells before p after := by
  intro c hc hbefore way hway
  exact h c hc hbefore way.1 way.2 ((mem_outcomes_iff p c way).mp hway)

theorem tells_peek (e : Expect) :
    Tells before (peek e : m Next) fun next c ts => ts = [] ∧ facing next c := by
  apply tells_step
  apply tells_of_forall
  intro c hc _ next c' h
  cases hahead : c.ahead with
  | some found =>
      simp only [hahead, Except.ok.injEq, Prod.mk.injEq] at h
      obtain ⟨rfl, rfl⟩ := h
      exact ⟨[], Told.refl hc, rfl, hahead⟩
  | none =>
      simp only [hahead, Except.ok.injEq, Prod.mk.injEq] at h
      obtain ⟨rfl, rfl⟩ := h
      refine ⟨[], ⟨⟨hc.size, ?_⟩, rfl⟩, rfl, rfl⟩
      intro next hnext
      cases hnext
      have hfits := read_fits e c.layout (c.left + 1) c.rest
      refine ⟨hfits.1, by rw [before_eq], hfits.2, fun h => ?_, fun h => ?_⟩
      · dsimp only
        rw [before_eq]
        exact read_name h
      · dsimp only
        rw [before_eq]
        exact read_visible h

theorem tells_peek_bind {e : Expect} {f : Next → m β}
    {after : β → Cursor source → List Tree → Prop}
    (h : ∀ next, Tells (facing next) (f next) after) : Tells before (peek e >>= f) after := by
  apply tells_bind (tells_peek e)
  rintro next ts c hc ⟨rfl, hfacing⟩
  exact h next c hc hfacing

theorem tells_peek_bind_facing {e : Expect} {next : Next} {f : Next → m β}
    {after : β → Cursor source → List Tree → Prop} (h : Tells (facing next) (f next) after) :
    Tells (facing next) (peek e >>= f) after := by
  intro c hc hfacing way hway
  obtain ⟨first, hfirst, hway⟩ := (Outcomes.mem_bind _ f c way).mp hway
  have hrun := (Outcomes.mem_step _ c first).mp hfirst
  simp only [show c.ahead = some next from hfacing, Except.ok.injEq] at hrun
  subst hrun
  exact h c hc hfacing way hway

theorem tells_modify {after : Unit → Cursor source → List Tree → Prop}
    {f : Cursor source → Cursor source}
    (h : ∀ c, Valid c → before c → ∃ ts, Told c (f c) ts ∧ after () (f c) ts) :
    Tells before (modify f : Parser source Unit) after := by
  apply tells_of_forall
  intro c hc hbefore a c' hrun
  obtain rfl : f c = c' := congrArg Prod.snd (Except.ok.inj hrun)
  exact h c hc hbefore

private theorem tells_pass (next : Next) :
    Tells (facing next) (modify fun c =>
      { c.pass next.lexeme.gaps with ahead := some (bare next) } : Parser source Unit)
      fun _ c ts => AreGaps ts ∧ facing (bare next) c := by
  apply tells_modify
  intro c hc hfacing
  have hfits := hc.ahead next hfacing
  obtain ⟨ts, htold, hgaps, -, hrest⟩ := told_pass hc hfits.gaps
  refine ⟨ts, ⟨⟨htold.valid.size, ?_⟩, htold.log⟩, hgaps, rfl⟩
  intro found hfound
  cases hfound
  exact ⟨trivial, by simpa [bare, widthOf, hrest] using hfits.text, hfits.layout,
    hfits.name, hfits.visible⟩

theorem tells_passGaps_facing (e : Expect) (next : Next) :
    Tells (facing next) (passGaps e : m Unit) fun _ c ts => AreGaps ts ∧ facing (bare next) c :=
  tells_step (tells_peek_bind_facing (tells_pass next))

theorem tells_passGaps (e : Expect) :
    Tells before (passGaps e : m Unit) fun _ c ts =>
      AreGaps ts ∧ ∃ next, facing (bare next) c := by
  apply tells_step
  apply tells_peek_bind
  intro next
  exact (tells_pass next).mono (fun _ h => h) fun _ _ _ h => ⟨h.1, next, h.2⟩

theorem tells_passGaps_bare (e : Expect) (next : Next) :
    Tells (facing (bare next)) (passGaps e : m Unit) fun _ c ts =>
      ts = [] ∧ facing (bare next) c := by
  refine tells_step (tells_peek_bind_facing (tells_modify ?_))
  intro c hc hfacing
  refine ⟨[], ⟨⟨hc.size, ?_⟩, rfl⟩, rfl, rfl⟩
  intro found hfound
  cases hfound
  exact hc.ahead (bare next) hfacing

/-- Gaps and then a leaf. -/
def Lexed (l : Leaf) (text : List Char) (ts : List Tree) : Prop :=
  ∃ gaps, AreGaps gaps ∧ ts = gaps ++ [.leaf l text]

private theorem tells_shift (l : Leaf) (next : Next) :
    Tells (facing (bare next))
      (do
        let next ← peek {}
        modify fun c => { c.shift (.leaf l) (fun _ => rfl) next.lexeme.width with
          layout := next.lexeme.layout } : Parser source Unit)
      fun _ _ ts => ts = [.leaf l next.text] := by
  apply tells_peek_bind_facing
  apply tells_modify
  intro c hc hfacing
  have hfits := hc.ahead _ hfacing
  have hleaf := told_shift_leaf hc l next.lexeme.width
  refine ⟨_, ⟨⟨hleaf.valid.size, hleaf.valid.ahead⟩, hleaf.log⟩, ?_⟩
  have htext : next.text = c.rest.take next.lexeme.width := by
    simpa [bare, widthOf] using hfits.text
  rw [htext]

theorem tells_take_facing (l : Leaf) (next : Next) :
    Tells (facing next) (take l : m Unit) fun _ _ ts => Lexed l next.text ts := by
  apply tells_step
  apply tells_bind (tells_passGaps_facing {} next)
  rintro - gaps c hc ⟨hgaps, hfacing⟩ way hway
  obtain ⟨ts, htold, rfl⟩ := tells_shift l next c hc hfacing way hway
  exact ⟨_, htold, gaps, hgaps, rfl⟩

theorem tells_take_bare (l : Leaf) (next : Next) :
    Tells (facing (bare next)) (take l : m Unit) fun _ _ ts => ts = [.leaf l next.text] := by
  apply tells_step
  apply tells_bind (tells_passGaps_bare {} next)
  rintro - gaps c hc ⟨rfl, hfacing⟩ way hway
  obtain ⟨ts, htold, hts⟩ := tells_shift l next c hc hfacing way hway
  exact ⟨ts, htold, hts⟩

theorem tells_take (l : Leaf) :
    Tells before (take l : m Unit) fun _ _ ts => ∃ text, Lexed l text ts := by
  apply tells_step
  apply tells_bind (tells_passGaps {})
  rintro - gaps c hc ⟨hgaps, next, hfacing⟩ way hway
  obtain ⟨ts, htold, rfl⟩ := tells_shift l next c hc hfacing way hway
  exact ⟨_, htold, next.text, gaps, hgaps, rfl⟩

theorem tells_fail : Tells before (fail : m α) after := by
  apply tells_step
  apply tells_peek_bind
  rintro next c hc - way hway
  cases (mem_outcomes_iff _ _ _).mp hway

theorem tells_ite {p : Prop} [Decidable p] {x y : m α} (hx : p → Tells before x after)
    (hy : ¬p → Tells before y after) : Tells before (if p then x else y) after := by
  split
  · exact hx ‹_›
  · exact hy ‹_›

theorem isSign_iff (next : Next) (text : List Char) :
    next.isSign text = true ↔ next.lexeme.category = .symbol ∧ next.text = text := by
  simp [Next.isSign]

theorem tells_sign (e : Expect) (text : List Char) :
    Tells before (sign e text : m Unit) fun _ _ ts => Lexed .sign text ts := by
  apply tells_step
  apply tells_peek_bind
  intro next
  refine tells_ite (fun h => ?_) fun _ => tells_fail
  obtain ⟨-, rfl⟩ := (isSign_iff next text).mp h
  exact tells_take_facing .sign next

theorem tells_keyword (e : Expect) (k : Keyword) :
    Tells before (keyword e k : m Unit) fun _ _ ts =>
      ∃ text, ofSpelling? text = some k ∧ Lexed .word text ts := by
  apply tells_step
  apply tells_peek_bind
  intro next
  refine tells_ite (fun h => ?_) fun _ => tells_fail
  have hspelling : ofSpelling? next.text = some k := by
    simp only [Next.isWord, Bool.and_eq_true, beq_iff_eq] at h
    exact h.2
  exact (tells_take_facing .word next).mono (fun _ h => h) fun _ _ _ h =>
    ⟨next.text, hspelling, h⟩

theorem tells_take_name {next : Next} (h : next.is .name = true) :
    Tells (facing next) (take .name : m Unit) fun _ _ ts =>
      IsIdentifier next.text ∧ Lexed .name next.text ts := by
  intro c hc hfacing way hway
  obtain ⟨ts, htold, hts⟩ := tells_take_facing .name next c hc hfacing way hway
  exact ⟨ts, htold, (hc.ahead next hfacing).name (by simpa [Next.is] using h), hts⟩

theorem tells_name (e : Expect) :
    Tells before (name e : m Unit) fun _ _ ts => ∃ text, IsIdentifier text ∧
      Lexed .name text ts := by
  apply tells_step
  apply tells_peek_bind
  intro next
  refine tells_ite (fun h => ?_) fun _ => tells_fail
  exact (tells_take_name h).mono (fun _ h => h) fun _ _ _ h => ⟨next.text, h⟩

theorem tells_take_layout {next : Next} (h : isLayout next.lexeme.category = true) :
    Tells (facing next) (take .layout : m Unit) fun _ _ ts => Lexed .layout [] ts := by
  intro c hc hfacing way hway
  have hfits := hc.ahead next hfacing
  have htext : next.text = [] := by
    rw [hfits.text, hfits.layout h, List.take_zero]
  rw [← htext]
  exact tells_take_facing .layout next c hc hfacing way hway

theorem tells_layoutMark (e : Expect) (category : Category) (h : isLayout category = true) :
    Tells before (layoutMark e category : m Unit) fun _ _ ts => Lexed .layout [] ts := by
  apply tells_step
  apply tells_peek_bind
  intro next
  refine tells_ite (fun hnext => tells_take_layout ?_) fun _ => tells_fail
  simpa [← show next.lexeme.category = category by simpa [Next.is] using hnext] using h

theorem tells_atSign (e : Expect) (signs : List (List Char)) :
    Tells before (atSign e signs : m Bool) fun _ _ ts => ts = [] := by
  apply tells_step
  apply tells_peek_bind
  exact fun next => tells_pure fun _ _ => rfl

theorem tells_atWord (e : Expect) (k : Keyword) :
    Tells before (atWord e k : m Bool) fun _ _ ts => ts = [] := by
  apply tells_step
  apply tells_peek_bind
  exact fun next => tells_pure fun _ _ => rfl

theorem told_opened {c : Cursor source} (h : Valid c) (kind : Kind) :
    Valid (c.opened kind) :=
  ⟨by simp [Cursor.opened, h.size], h.ahead⟩

theorem told_closed {c : Cursor source} (h : Valid c) : Valid c.closed :=
  ⟨by simp [Cursor.closed, h.size], h.ahead⟩

/-- A construct tells gaps and then its node. Its body begins after the gaps. -/
theorem tells_node_after {kind : Kind} {e : Expect} {body : m α} {inside : α → List Tree → Prop}
    {within : Cursor source → Prop} {P : List Tree → Prop}
    (hgaps : Tells before (passGaps e : m Unit) fun _ c ts => P ts ∧ within (c.opened kind))
    (h : Tells within body fun a _ ts => inside a ts) :
    Tells before (node kind e body) fun a _ ts =>
      ∃ gaps children, P gaps ∧ inside a children ∧ ts = gaps ++ [.node kind children] := by
  apply tells_bind hgaps
  rintro - gaps c hc ⟨hgaps, hwithin⟩ way hway
  obtain ⟨first, hfirst, hway⟩ := (Outcomes.mem_bind _ _ _ _).mp hway
  obtain rfl : ((), c.opened kind) = first :=
    Except.ok.inj ((Outcomes.mem_step _ _ _).mp hfirst)
  obtain ⟨second, hsecond, hway⟩ := (Outcomes.mem_bind _ _ _ _).mp hway
  obtain ⟨children, htold, hinside⟩ := h _ (told_opened hc kind) hwithin second hsecond
  obtain ⟨third, hthird, hway⟩ := (Outcomes.mem_bind _ _ _ _).mp hway
  obtain rfl : ((), second.2.closed) = third :=
    Except.ok.inj ((Outcomes.mem_step _ _ _).mp hthird)
  obtain rfl := (Outcomes.mem_pure _ _ _).mp hway
  refine ⟨[.node kind children], ⟨told_closed htold.valid, ?_⟩,
    gaps, children, hgaps, hinside, rfl⟩
  simp [Cursor.closed, Cursor.opened, htold.log, eventsOfAll, eventsOf]

theorem tells_node {kind : Kind} {e : Expect} {body : m α} {inside : α → List Tree → Prop}
    (h : Tells anywhere body fun a _ ts => inside a ts) :
    Tells before (node kind e body) fun a _ ts =>
      ∃ gaps children, AreGaps gaps ∧ inside a children ∧ ts = gaps ++ [.node kind children] :=
  tells_node_after ((tells_passGaps e).mono (fun _ h => h) fun _ _ _ h => ⟨h.1, trivial⟩) h

theorem tells_node_facing {kind : Kind} {e : Expect} {next : Next} {body : m α}
    {inside : α → List Tree → Prop}
    (h : Tells (facing (bare next)) body fun a _ ts => inside a ts) :
    Tells (facing next) (node kind e body) fun a _ ts =>
      ∃ gaps children, AreGaps gaps ∧ inside a children ∧ ts = gaps ++ [.node kind children] :=
  tells_node_after (tells_passGaps_facing e next) h

theorem tells_left : Tells before (left : m Nat) fun _ _ ts => ts = [] := by
  apply tells_step
  apply tells_of_forall
  intro c hc _ a c' h
  cases h
  exact ⟨[], Told.refl hc, rfl⟩

theorem tells_mark (e : Expect) :
    Tells before (mark e : m Nat) fun since c ts => AreGaps ts ∧ since = c.log.length := by
  apply tells_step
  apply tells_bind (tells_passGaps e)
  rintro - gaps
  apply tells_of_forall
  rintro c hc ⟨hgaps, -⟩ since c' h
  cases h
  exact ⟨[], Told.refl hc, by simpa using hgaps, hc.size⟩

end

section

variable {before : Cursor source → Prop} {after : α → Cursor source → List Tree → Prop}

theorem tells_either {first second : Parser source α} (h₁ : Tells before first after)
    (h₂ : Tells before second after) : Tells before (either first second) after := by
  apply tells_of_forall
  intro c hc hbefore a c' h
  unfold either at h
  split at h
  · rename_i way hway
    cases h
    exact h₁ c hc hbefore _ ((mem_outcomes_iff _ _ _).mpr hway)
  · split at h
    · rename_i way hway
      cases h
      exact h₂ c hc hbefore _ ((mem_outcomes_iff _ _ _).mpr hway)
    · cases h

theorem tells_ahead (p : Parser source α) :
    Tells before (ahead p) fun _ _ ts => ts = [] := by
  apply tells_of_forall
  intro c hc hbefore a c' h
  unfold ahead at h
  split at h
  · cases h
    exact ⟨[], Told.refl hc, rfl⟩
  · cases h
    exact ⟨[], Told.refl hc, rfl⟩

theorem tells_loop {K : Tree → Prop} {step : σ → Parser source (Option σ)} {init : σ}
    (h : ∀ s, Tells anywhere (step s) fun _ _ ts => ∀ t ∈ ts, K t) :
    Tells before (loop step init) fun _ _ ts => ∀ t ∈ ts, K t := by
  have hgo (fuel : Nat) (s : σ) :
      Tells anywhere (loop.go step fuel s) fun _ _ ts => ∀ t ∈ ts, K t := by
    induction fuel generalizing s with
    | zero => exact tells_pure fun _ _ => by simp
    | succ fuel ih =>
        apply tells_bind (h s)
        rintro (_ | s') ts
        · exact tells_pure fun _ h => by simpa using h
        · intro c hc hts way hway
          obtain ⟨us, htold, hus⟩ := ih s' c hc trivial way hway
          refine ⟨us, htold, fun t ht => ?_⟩
          rcases List.mem_append.mp ht with ht | ht
          · exact hts t ht
          · exact hus t ht
  apply tells_of_forall
  intro c hc _ a c' hrun
  exact hgo _ init c hc trivial _ ((mem_outcomes_iff _ _ _).mpr hrun)

theorem tells_both {first second : Branching source α} (h₁ : Tells before first after)
    (h₂ : Tells before second after) : Tells before (both first second) after := by
  intro c hc hbefore way hway
  rcases List.mem_append.mp hway with hway | hway
  · exact h₁ c hc hbefore way hway
  · exact h₂ c hc hbefore way hway

theorem mem_of_mem_settled {way : Bool × Cursor source} {ways : List (Bool × Cursor source)}
    (h : way ∈ settled ways) : way ∈ ways := by
  induction ways with
  | nil => simp [settled] at h
  | cons first ways ih =>
      rcases List.mem_cons.mp h with rfl | h
      · exact List.mem_cons_self
      · exact List.mem_cons_of_mem _ (ih ((List.mem_filter.mp h).1))

/-- What holds after the first step and is kept by those after it holds when a repetition ends. -/
theorem tells_repeated_first {step : Branching source Bool} {within : Bool → List Tree → Prop}
    (hfirst : Tells before step fun more _ ts => within more ts)
    (hstep : ∀ ts, within true ts → Tells anywhere step fun more _ us => within more (ts ++ us)) :
    Tells before (repeated step) fun _ _ ts => ∃ more, within more ts := by
  intro c hc hbefore way hway
  -- The invariant of the ways once each has taken a step.
  let Reached (found : Bool × Cursor source) : Prop := ∃ ts, Told c found.2 ts ∧ within found.1 ts
  have hdone (ways : List (Bool × Cursor source)) (hways : ∀ found ∈ ways, Reached found) :
      ∀ way ∈ ways.map fun found => ((), found.2), ∃ ts, Told c way.2 ts ∧
        ∃ more, within more ts := by
    intro way hway
    obtain ⟨found, hfound, rfl⟩ := List.mem_map.mp hway
    obtain ⟨ts, htold, hts⟩ := hways found hfound
    exact ⟨ts, htold, found.1, hts⟩
  have hgo (fuel : Nat) (ways : List (Bool × Cursor source)) (failed : Option Nat)
      (hways : ∀ found ∈ ways, Reached found) :
      ∀ way ∈ (repeated.go step fuel ways failed).found,
        ∃ ts, Told c way.2 ts ∧ ∃ more, within more ts := by
    induction fuel generalizing ways failed with
    | zero => exact hdone ways hways
    | succ fuel ih =>
        unfold repeated.go
        split
        · exact hdone ways hways
        · apply ih
          intro found hfound
          obtain ⟨more, hmore, hfound⟩ := List.mem_flatMap.mp (mem_of_mem_settled hfound)
          obtain ⟨way, hway, rfl⟩ := List.mem_map.mp hmore
          obtain ⟨ts, htold, hts⟩ := hways way hway
          split at hfound
          · rename_i hgoes
            rw [Bool.and_eq_true] at hgoes
            rw [hgoes.1] at hts
            obtain ⟨us, htold', hus⟩ := hstep ts hts way.2 htold.valid trivial found hfound
            exact ⟨ts ++ us, htold.trans htold', hus⟩
          · obtain rfl : found = way := by simpa using hfound
            exact ⟨ts, htold, hts⟩
  have hrun : repeated step c =
      repeated.go step (c.left + 1) (settled (step c).found) (step c).failed := by
    rw [repeated, repeated.go]
    simp [further]
  refine hgo (c.left + 1) (settled (step c).found) (step c).failed ?_ way ?_
  · intro found hfound
    exact hfirst c hc hbefore found (mem_of_mem_settled hfound)
  · rw [← hrun]
    exact hway

theorem tells_repeated {K : Tree → Prop} {step : Branching source Bool}
    (h : Tells anywhere step fun _ _ ts => ∀ t ∈ ts, K t) :
    Tells before (repeated step) fun _ _ ts => ∀ t ∈ ts, K t := by
  intro c hc _ way hway
  -- The invariant of the ways: what each has told since the start has the property.
  let Reached (found : Cursor source) : Prop := ∃ ts, Told c found ts ∧ ∀ t ∈ ts, K t
  have hgo (fuel : Nat) (ways : List (Bool × Cursor source)) (failed : Option Nat)
      (hways : ∀ found ∈ ways, Reached found.2) :
      ∀ way ∈ (repeated.go step fuel ways failed).found, Reached way.2 := by
    induction fuel generalizing ways failed with
    | zero =>
        intro way hway
        obtain ⟨found, hfound, rfl⟩ := List.mem_map.mp hway
        exact hways found hfound
    | succ fuel ih =>
        unfold repeated.go
        split
        · intro way hway
          obtain ⟨found, hfound, rfl⟩ := List.mem_map.mp hway
          exact hways found hfound
        · apply ih
          intro found hfound
          obtain ⟨more, hmore, hfound⟩ := List.mem_flatMap.mp (mem_of_mem_settled hfound)
          obtain ⟨way, hway, rfl⟩ := List.mem_map.mp hmore
          obtain ⟨ts, htold, hts⟩ := hways way hway
          split at hfound
          · obtain ⟨us, htold', hus⟩ := h way.2 htold.valid trivial found hfound
            refine ⟨ts ++ us, htold.trans htold', fun t ht => ?_⟩
            rcases List.mem_append.mp ht with ht | ht
            · exact hts t ht
            · exact hus t ht
          · obtain rfl : found = way := by simpa using hfound
            exact ⟨ts, htold, hts⟩
  refine hgo (c.left + 2) [(true, c)] none ?_ way hway
  intro found hfound
  obtain rfl : found = (true, c) := by simpa using hfound
  exact ⟨[], Told.refl hc, by simp⟩

end

end Cythonizer.Proofs.Source.Telling
