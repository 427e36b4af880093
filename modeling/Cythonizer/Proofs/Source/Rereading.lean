import Cythonizer.Proofs.Source.Lookahead
import Cythonizer.Proofs.Source.Parameters

/-!
Runs of the reader from a place in a text, one lexeme after another. A parameter list that was put
together, with a comma and a blank between any two parameters, is taken if each parameter is taken
where it stands (`runs_parameters`), and every name is taken for one (`takesItem_named`).
-/

namespace Cythonizer.Proofs.Source.Rereading

open Cythonizer.Source.Reader
open Cythonizer.Source.Gaps
open Cythonizer.Source.Rules.Collection
open Cythonizer.Source.Rules.Parameter
open Cythonizer.Source.Rules.Phrases
open Cythonizer.Source.Lexemes
open Cythonizer.Source.Trees
open Cythonizer.Text.Identifier
open Cythonizer.Proofs.Source.Events
open Cythonizer.Proofs.Source.Gaps
open Cythonizer.Proofs.Source.Lookahead
open Cythonizer.Proofs.Source.Parameters
open Cythonizer.Proofs.Source.Telling

variable {source : List Char} {α β : Type}

/-- A cursor before a text, with the layout and the lexeme ahead. -/
structure At (layout : Layout) (ahead : Option Next) (text : List Char) (c : Cursor source) :
    Prop where
  layout : c.layout = layout
  ahead : c.ahead = ahead
  rest : c.rest = text
  left : c.left = text.length

/-- From every cursor with `before` the reader goes on and tells trees, and `after` holds then. -/
def Runs (before : Cursor source → Prop) (x : Parser source α)
    (after : α → Cursor source → List Tree → Prop) : Prop :=
  ∀ c, Valid c → before c → ∃ a c' ts, x c = .ok (a, c') ∧ Told c c' ts ∧ after a c' ts

section

variable {before : Cursor source → Prop} {after : α → Cursor source → List Tree → Prop}

theorem Runs.mono {before' : Cursor source → Prop} {after' : α → Cursor source → List Tree → Prop}
    {x : Parser source α} (h : Runs before x after) (hbefore : ∀ c, before' c → before c)
    (hafter : ∀ a c ts, after a c ts → after' a c ts) : Runs before' x after' := by
  intro c hc hbefore'
  obtain ⟨a, c', ts, hrun, htold, hts⟩ := h c hc (hbefore c hbefore')
  exact ⟨a, c', ts, hrun, htold, hafter a c' ts hts⟩

theorem runs_of_tells {x : Parser source α} {goes : α → Cursor source → Prop} {P : List Tree → Prop}
    (htells : Tells before x fun _ _ ts => P ts)
    (hgoes : ∀ c, Valid c → before c → ∃ a c', x c = .ok (a, c') ∧ goes a c') :
    Runs before x fun a c ts => P ts ∧ goes a c := by
  intro c hc hbefore
  obtain ⟨a, c', hrun, hgoes⟩ := hgoes c hc hbefore
  obtain ⟨ts, htold, hts⟩ := htells c hc hbefore (a, c') ((mem_outcomes_iff _ _ _).mpr hrun)
  exact ⟨a, c', ts, hrun, htold, hts, hgoes⟩

theorem runs_pure {a : α} (h : ∀ c, before c → after a c []) : Runs before (pure a) after :=
  fun c hc hbefore => ⟨a, c, [], rfl, Told.refl hc, h c hbefore⟩

theorem runs_bind {x : Parser source α} {f : α → Parser source β}
    {between : α → Cursor source → List Tree → Prop} {after : β → Cursor source → List Tree → Prop}
    (hx : Runs before x between)
    (hf : ∀ a ts, Runs (fun c => between a c ts) (f a) fun b c us => after b c (ts ++ us)) :
    Runs before (x >>= f) after := by
  intro c hc hbefore
  obtain ⟨a, c', ts, hrun, htold, hbetween⟩ := hx c hc hbefore
  obtain ⟨b, c'', us, hrun', htold', hafter⟩ := hf a ts c' htold.valid hbetween
  refine ⟨b, c'', ts ++ us, ?_, htold.trans htold', hafter⟩
  change Except.bind (x c) (fun first => f first.1 first.2) = .ok (b, c'')
  rw [hrun]
  exact hrun'

/-- The trees that are told first are known. -/
theorem runs_then {x : Parser source α} {f : α → Parser source β} {first : List Tree}
    {between : α → Cursor source → Prop} {after : β → Cursor source → List Tree → Prop}
    (hx : Runs before x fun a c ts => ts = first ∧ between a c)
    (hf : ∀ a, Runs (between a) (f a) fun b c us => after b c (first ++ us)) :
    Runs before (x >>= f) after := by
  refine runs_bind hx fun a ts c hc => ?_
  rintro ⟨rfl, hbetween⟩
  exact hf a c hc hbetween

end

section

variable {layout : Layout} {next : Next} {text rest : List Char}

theorem runs_peek_fresh (e : Expect) :
    Runs (At layout none text) (peek e : Parser source Next) fun next c ts =>
      ts = [] ∧ next = lookAt e layout text ∧ At layout (some next) text c := by
  refine runs_of_tells ((tells_peek e).mono (fun _ _ => trivial) fun _ _ _ h => h.1) fun c _ h => ?_
  refine ⟨lookAt e layout text, { c with ahead := some (lookAt e layout text) }, ?_, rfl, ?_⟩
  · simp [peek, Reading.step, h.ahead, h.layout, h.rest, h.left, lookAt]
  · exact ⟨h.layout, rfl, h.rest, h.left⟩

theorem runs_peek (e : Expect) :
    Runs (At layout (some next) text) (peek e : Parser source Next) fun found c ts =>
      ts = [] ∧ found = next ∧ At layout (some next) text c := by
  refine runs_of_tells ((tells_peek e).mono (fun _ _ => trivial) fun _ _ _ h => h.1) fun c _ h => ?_
  exact ⟨next, c, by simp [peek, Reading.step, h.ahead], rfl, h⟩

theorem runs_modify {before : Cursor source → Prop}
    {after : Unit → Cursor source → List Tree → Prop}
    {f : Cursor source → Cursor source}
    (h : ∀ c, Valid c → before c → ∃ ts, Told c (f c) ts ∧ after () (f c) ts) :
    Runs before (modify f : Parser source Unit) after := by
  intro c hc hbefore
  obtain ⟨ts, htold, hts⟩ := h c hc hbefore
  exact ⟨(), f c, ts, rfl, htold, hts⟩

theorem runs_modifyBare (hbare : next.lexeme.gaps = []) :
    Runs (At layout (some next) rest) (modify fun c =>
      { c.pass next.lexeme.gaps with ahead := some (bare next) } : Parser source Unit) fun _ c ts =>
      ts = [] ∧ At layout (some next) rest c := by
  obtain ⟨⟨gaps, category, width, after⟩, text⟩ := next
  obtain rfl : gaps = [] := hbare
  refine runs_modify fun c hc h => ?_
  refine ⟨[], ⟨⟨hc.size, fun found hfound => ?_⟩, rfl⟩, rfl, h.layout, rfl, h.rest, h.left⟩
  obtain rfl := Option.some.inj hfound
  exact hc.ahead _ h.ahead

theorem runs_passBare (hbare : next.lexeme.gaps = []) (e : Expect) :
    Runs (At layout (some next) rest) (passGaps e : Parser source Unit) fun _ c ts =>
      ts = [] ∧ At layout (some next) rest c := by
  refine runs_then (runs_peek e) fun found => ?_
  rintro c hc ⟨rfl, h⟩
  exact runs_modifyBare hbare c hc h

theorem runs_shift (hwidth : next.lexeme.width = next.text.length) (l : Leaf) :
    Runs (At layout (some next) (next.text ++ rest)) (do
        let next ← peek {}
        modify fun c => { c.shift (.leaf l) (fun _ => rfl) next.lexeme.width with
          layout := next.lexeme.layout } : Parser source Unit)
      fun _ c ts => ts = [.leaf l next.text] ∧ At next.lexeme.layout none rest c := by
  refine runs_then (runs_peek {}) fun found => runs_modify ?_
  rintro c hc ⟨rfl, h⟩
  have htold := told_shift_leaf hc l found.lexeme.width
  have htext : c.rest.take found.lexeme.width = found.text := by simp [h.rest, hwidth]
  rw [htext] at htold
  refine ⟨[.leaf l found.text], ⟨⟨htold.valid.size, nofun⟩, htold.log⟩, rfl, rfl, rfl, ?_, ?_⟩
  · simp [Cursor.shift, hwidth, h.rest]
  · simp [Cursor.shift, hwidth, h.left]

theorem runs_takeBare (hbare : next.lexeme.gaps = [])
    (hwidth : next.lexeme.width = next.text.length) (l : Leaf) :
    Runs (At layout (some next) (next.text ++ rest)) (take l : Parser source Unit) fun _ c ts =>
      ts = [.leaf l next.text] ∧ At next.lexeme.layout none rest c :=
  runs_then (runs_passBare hbare {}) fun _ => runs_shift hwidth l

theorem runs_pass {category : Category} (spaced : Bool) :
    Runs (At layout (some (nextOf category spaced layout text)) (spellAll (spacing spaced) ++ rest))
      (modify fun c => { c.pass (nextOf category spaced layout text).lexeme.gaps with
        ahead := some (bare (nextOf category spaced layout text)) } : Parser source Unit) fun _ c
          ts =>
        ts = spacing spaced ∧ At layout (some (nextOf category false layout text)) rest c := by
  cases spaced with
  | false => exact runs_modifyBare rfl
  | true =>
      refine runs_modify fun c hc h => ?_
      have hfits := hc.ahead _ h.ahead
      have htold := told_shift_gap hc .blank 1
      have hblank : c.rest.take 1 = [' '] := by simp [h.rest, spacing, spellAll, spell]
      have hrest : c.rest.drop 1 = rest := by simp [h.rest, spacing, spellAll, spell]
      refine ⟨spacing true, ⟨⟨htold.valid.size, fun found hfound => ?_⟩, ?_⟩, rfl,
        h.layout, rfl, hrest, ?_⟩
      · obtain rfl : nextOf category false layout text = found := Option.some.inj hfound
        exact ⟨trivial, by simpa [nextOf, widthOf, Cursor.pass, Cursor.shift] using hfits.text,
          hfits.layout,
          hfits.name, hfits.visible⟩
      · rw [hblank] at htold
        exact htold.log
      · change c.left - 1 = rest.length
        rw [h.left]
        simp [spacing, spellAll, spell]

theorem runs_passGaps {category : Category} {rest : List Char} (spaced : Bool) (e : Expect) :
    Runs (At layout (some (nextOf category spaced layout text)) (spellAll (spacing spaced) ++ rest))
      (passGaps e : Parser source Unit) fun _ c ts =>
        ts = spacing spaced ∧ At layout (some (nextOf category false layout text)) rest c := by
  refine runs_then (runs_peek e) fun next => ?_
  rintro c hc ⟨rfl, h⟩
  exact runs_pass spaced c hc h

theorem runs_take {category : Category} {rest : List Char} (l : Leaf) :
    Runs (At layout (some (nextOf category false layout text)) (text ++ rest))
      (take l : Parser source Unit)
      fun _ c ts => ts = [.leaf l text] ∧ At layout none rest c :=
  @runs_takeBare source layout (nextOf category false layout text) rest rfl rfl l

/-- A construct is told around what its body tells, behind the gaps before it. -/
theorem runs_node {kind : Kind} {e : Expect} {body : Parser source α}
    {before within : Cursor source → Prop}
    {exit : Cursor source → Prop} {gaps children : List Tree}
    (hgaps : Runs before (passGaps e : Parser source Unit) fun _ c ts => ts = gaps ∧
      within (c.opened kind))
    (hbody : Runs within body fun _ c ts => ts = children ∧ exit c.closed) :
    Runs before (node kind e body) fun _ c ts => ts = gaps ++ [.node kind children] ∧ exit c := by
  refine runs_then hgaps fun _ c hc hwithin => ?_
  obtain ⟨a, c', us, hrun, htold, rfl, hexit⟩ := hbody (c.opened kind) (told_opened hc kind) hwithin
  refine ⟨a, c'.closed, [.node kind us], ?_, ⟨told_closed htold.valid, ?_⟩, rfl, hexit⟩
  · change Except.bind (body (c.opened kind)) (fun first => .ok (first.1, first.2.closed)) =
      .ok (a, c'.closed)
    rw [hrun]
    rfl
  · simp [Cursor.closed, Cursor.opened, htold.log, eventsOfAll, eventsOf]

end

/-- A cursor before a sign of a list, which was looked at or not. -/
def Meets (text : List Char) (c : Cursor source) : Prop :=
  ∃ layout, At layout none text c ∨
    ∃ s rest, text = s :: rest ∧ At layout (some (nextOf .symbol false layout [s])) text c

theorem runs_peek_meets {s : Char} (hs : IsBoundary s) (rest : List Char) (e : Expect) :
    Runs (Meets (s :: rest)) (peek e : Parser source Next) fun next c ts =>
      ts = [] ∧ ∃ layout, next = nextOf .symbol false layout [s] ∧
        At layout (some next) (s :: rest) c := by
  rintro c hc ⟨layout, h | ⟨s', rest', hsplit, h⟩⟩
  · obtain ⟨next, c', ts, hrun, htold, rfl, rfl, hat⟩ := runs_peek_fresh e c hc h
    rw [lookAt_boundary hs] at hat hrun
    exact ⟨_, c', [], hrun, htold, rfl, layout, rfl, hat⟩
  · obtain ⟨rfl, rfl⟩ := List.cons.inj hsplit
    obtain ⟨next, c', ts, hrun, htold, rfl, rfl, hat⟩ := runs_peek e c hc h
    exact ⟨_, c', [], hrun, htold, rfl, layout, rfl, hat⟩

theorem runs_optional {s : Char} (hs : IsBoundary s) {rest : List Char} (e : Expect)
    {p : Next → Bool}
    (hp : ∀ layout, p (nextOf .symbol false layout [s]) = false) (x : Parser source Unit) :
    Runs (Meets (s :: rest)) (do if p (← peek e) then x) fun _ c ts =>
      ts = [] ∧ Meets (s :: rest) c := by
  refine runs_then (runs_peek_meets hs rest e) fun next => ?_
  rintro c hc ⟨layout, rfl, h⟩
  rw [if_neg (by simp [hp])]
  exact ⟨(), c, [], rfl, Told.refl hc, rfl, layout, .inr ⟨s, rest, rfl, h⟩⟩

/-- The signs on which a parameter ends. -/
inductive IsStop : Char → Prop
  | comma : IsStop ','
  | closing : IsStop ')'

/-- A text on which a parameter ends. -/
def Stops (text : List Char) : Prop :=
  ∃ s rest, text = s :: rest ∧ IsStop s

section

variable {s : Char} (h : IsStop s)

include h

theorem IsStop.isBoundary : IsBoundary s := by
  cases h <;> constructor

theorem IsStop.isInner : isInner s = false := by
  cases h <;> decide

theorem IsStop.isSign_eq_false {sign : List Char} (hsign : sign = [':'] ∨ sign = ['='])
    (layout : Layout) :
    (nextOf .symbol false layout [s]).isSign sign = false := by
  rcases hsign with rfl | rfl <;> cases h <;> rfl

theorem IsStop.startsNothing (layout : Layout) :
    startsExpression (nextOf .symbol false layout [s]) = false := by
  cases h <;> rfl

end

/-- What is read behind the name of a parameter. -/
def behindName (g : Grammar source) : Parser source Unit := do
  parameterType g itemEnd true
  parameterDefault g itemEnd

/-- What stands behind a name is taken wherever a parameter ends behind it. -/
def TakesTail (g : Grammar source) (ts : List Tree) : Prop :=
  ∀ layout rest, Stops rest → Runs (At layout none (spellAll ts ++ rest))
    (behindName g) fun _ c us =>
    us = ts ∧ Meets rest c

/-- What may stand where a parameter may begin, or the list may end. -/
def listStart : Expect := { itemEnd with power := true }

/-- A parameter is taken wherever one may begin and end behind it. -/
structure TakesItem (g : Grammar source) (t : Tree) : Prop where
  starts (layout : Layout) (spaced : Bool) (rest : List Char) : Stops rest →
    startsParameter (lookAt listStart layout (spellAll (spacing spaced) ++ (spell t ++ rest))) =
      true
  runs (layout : Layout) (spaced : Bool) (rest : List Char) : Stops rest →
    Runs (At layout
      (some (lookAt listStart layout (spellAll (spacing spaced) ++ (spell t ++ rest))))
        (spellAll (spacing spaced) ++ (spell t ++ rest)))
      (parameter g itemEnd true) fun _ c us => us = spacing spaced ++ [t] ∧ Meets rest c

section

variable {g : Grammar source}

theorem takesTail_nil : TakesTail g [] := by
  rintro layout _ ⟨s, rest, rfl, hs⟩
  have hnone (sign : List Char) (hsign : sign = [':'] ∨ sign = ['=']) (x : Parser source Unit) :
      Runs (Meets (s :: rest)) (do if (← peek itemEnd).isSign sign then x) fun _ c ts =>
        ts = [] ∧ Meets (s :: rest) c :=
    runs_optional hs.isBoundary itemEnd (hs.isSign_eq_false hsign) x
  refine (runs_then (hnone _ (.inl rfl) _) fun _ => hnone _ (.inr rfl) _).mono ?_ fun _ _ _ h => h
  exact fun c h => ⟨layout, .inl h⟩

theorem Meets.closed {text : List Char} {c : Cursor source} (h : Meets text c) :
    Meets text c.closed := by
  obtain ⟨layout, h | ⟨s, rest, hsplit, h⟩⟩ := h
  · exact ⟨layout, .inl ⟨h.layout, h.ahead, h.rest, h.left⟩⟩
  · exact ⟨layout, .inr ⟨s, rest, hsplit, h.layout, h.ahead, h.rest, h.left⟩⟩

/-- A construct around what its body tells, which begins with the lexeme ahead. -/
theorem runs_listNode {kind : Kind} {category : Category} {layout : Layout}
    {text rest after : List Char}
    {body : Parser source Unit} {children : List Tree} (spaced : Bool)
    (hbody : Runs (At layout (some (nextOf category false layout text)) rest) body fun _ c us =>
      us = children ∧ Meets after c) :
    Runs (At layout (some (nextOf category spaced layout text)) (spellAll (spacing spaced) ++ rest))
      (node kind {} body) fun _ c us => us = spacing spaced ++ [.node kind children] ∧
        Meets after c := by
  refine runs_node ((runs_passGaps spaced {}).mono (fun _ h => h) ?_)
    (hbody.mono (fun _ h => h) fun _ _ _ h => ⟨h.1, h.2.closed⟩)
  exact fun _ c _ h => ⟨h.1, h.2.layout, h.2.ahead, h.2.rest, h.2.left⟩

theorem runs_name {layout : Layout} {text rest : List Char} (e : Expect) :
    Runs (At layout (some (nextOf .name false layout text)) (text ++ rest))
      (name e : Parser source Unit)
      fun _ c ts => ts = [.leaf .name text] ∧ At layout none rest c := by
  refine runs_then (runs_peek e) fun next => ?_
  rintro c hc ⟨rfl, h⟩
  exact runs_take .name c hc h

/-- A text that a name does not go on in. -/
def Parted (text : List Char) : Prop :=
  ∀ c ∈ text.head?, isInner c = false

theorem parted_cons {c : Char} (h : isInner c = false) (rest : List Char) : Parted (c :: rest) := by
  simpa [Parted] using h

theorem Stops.parted {text : List Char} (h : Stops text) : Parted text := by
  obtain ⟨s, rest, rfl, hs⟩ := h
  exact parted_cons hs.isInner rest

section

variable {rest : List Char} (hrest : Parted rest)

include hrest

theorem parted_spells {gap : Gap} {text : List Char} (h : Spells gap text) :
    Parted (text ++ rest) := by
  cases gap with
  | blank =>
      have hblanks : Blanks text := h
      cases hblanks with
      | nil => exact hrest
      | space hc _ => exact parted_cons (isInner_of_isSpace hc) _
      | joined _ => exact parted_cons (by decide) _
      | joinedReturn _ => exact parted_cons (by decide) _
  | comment =>
      obtain ⟨comment, rfl, -⟩ := h
      exact parted_cons (by decide) _
  | continuation => obtain rfl | rfl | rfl := h <;> exact parted_cons (by decide) _

theorem parted_areGaps {gaps : List Tree} (h : AreGaps gaps) : Parted (spellAll gaps ++ rest) := by
  induction gaps with
  | nil => exact hrest
  | cons t gaps ih =>
      obtain ⟨⟨g, text, rfl, hspells⟩, hgaps⟩ := List.forall_mem_cons.mp h
      rw [spellAll, List.append_assoc]
      exact parted_spells (ih hgaps) hspells

theorem parted_isAttached {kind : Kind} {s : Char} (hs : isInner s = false) {ts : List Tree}
    {found : Option (List Tree)} (h : IsAttached kind [s] ts found) :
      Parted (spellAll ts ++ rest) := by
  cases h with
  | none => exact hrest
  | some hgaps hbetween =>
      rw [spellAll_append, List.append_assoc]
      exact parted_areGaps (parted_cons hs _) hgaps

end

theorem takesItem_named {name : List Char} {tail : List Tree} {hint default : Option (List Tree)}
    (h : IsNamed (.leaf .name name :: tail) name hint default) (hname : IsIdentifier name)
    (htail : TakesTail g tail) : TakesItem g (.node .named (.leaf .name name :: tail)) := by
  have hends (rest : List Char) (hrest : Stops rest) : Parted (spellAll tail ++ rest) := by
    obtain ⟨hhint, hdefault⟩ := h
    rw [spellAll_append, List.append_assoc]
    exact parted_isAttached (parted_isAttached hrest.parted (by decide) hdefault) (by decide) hhint
  have hnext (layout : Layout) (spaced : Bool) {rest : List Char} (hrest : Stops rest) :
      lookAt listStart layout
        (spellAll (spacing spaced) ++ (spell (.node .named (.leaf .name name :: tail)) ++ rest)) =
          nextOf .name spaced layout name := by
    simpa [spell, spellAll] using lookAt_name (e := listStart) rfl hname
      (hends rest hrest) layout spaced
  constructor
  · intro layout spaced rest hrest
    rw [hnext layout spaced hrest]
    rfl
  · intro layout spaced rest hrest
    rw [hnext layout spaced hrest]
    refine runs_then (runs_peek parameterStart) fun next => ?_
    rintro c hc ⟨rfl, h⟩
    have hbody :
      Runs (At layout (some (nextOf .name false layout name)) (name ++ (spellAll tail ++ rest)))
        (do
          Source.Reader.name {}
          behindName g) fun _ c us => us = .leaf .name name :: tail ∧ Meets rest c :=
      runs_then (runs_name {}) fun _ => (htail layout rest hrest).mono (fun _ h => h) fun _ _ _ h =>
        ⟨congrArg _ h.1, h.2⟩
    exact runs_listNode spaced hbody c hc (by simpa [spell, spellAll] using h)

theorem symbolWidth_marker {s : Char} (h : s = '/' ∨ s = '*') {rest : List Char}
    (hrest : Stops rest)
    (e : Expect) : symbolWidth e (s :: rest) = 1 := by
  obtain ⟨stop, rest, rfl, hstop⟩ := hrest
  rcases h with rfl | rfl <;> cases hstop <;> rcases rest with _ | ⟨a, rest⟩ <;> simp [symbolWidth]

/-- A marker is taken for a parameter that its sign alone decides. -/
theorem takesItem_marker {kind : Kind} {s : Char} {body : Parser source Unit}
    (hs : s = '/' ∨ s = '*')
    (hnode : ∀ layout spaced text after,
      Runs (At layout (some (nextOf .symbol spaced layout [s])) text) (node kind {} body) after →
        Runs (At layout (some (nextOf .symbol spaced layout [s])) text)
          (parameter g itemEnd true) after)
    (hbody : ∀ layout rest, Stops rest →
      Runs (At layout (some (nextOf .symbol false layout [s])) (s :: rest))
      body fun _ c us => us = [.leaf .sign [s]] ∧ Meets rest c) :
    TakesItem g (.node kind [.leaf .sign [s]]) := by
  have hnext (layout : Layout) (spaced : Bool) {rest : List Char} (hrest : Stops rest) :
      lookAt listStart layout
        (spellAll (spacing spaced) ++ (spell (.node kind [.leaf .sign [s]]) ++ rest)) =
        nextOf .symbol spaced layout [s] := by
    have hsign : IsListSign s := by rcases hs with rfl | rfl <;> constructor
    simpa [spell, spellAll] using
      lookAt_listSign (e := listStart) hsign (symbolWidth_marker hs hrest _) layout spaced
  constructor
  · intro layout spaced rest hrest
    rw [hnext layout spaced hrest]
    rcases hs with rfl | rfl <;> rfl
  · intro layout spaced rest hrest
    rw [hnext layout spaced hrest]
    refine hnode layout spaced _ _ ?_
    simpa [spell, spellAll] using runs_listNode spaced (hbody layout rest hrest)

theorem takesItem_slash : TakesItem g (.node .slash [.leaf .sign ['/']]) := by
  refine @takesItem_marker _ g .slash '/' (take .sign) (.inl rfl) ?_ fun layout rest _ => ?_
  · intro layout spaced text after h
    refine runs_then (runs_peek parameterStart) fun next => ?_
    rintro c hc ⟨rfl, hat⟩
    exact h c hc hat
  · exact (runs_take .sign).mono (fun _ h => h) fun _ _ _ h => ⟨h.1, layout, .inl h.2⟩

theorem takesItem_star : TakesItem g (.node .star [.leaf .sign ['*']]) := by
  let body : Parser source Unit := do
    take .sign
    if startsExpression (← peek (operandStart.union itemEnd)) then
      Source.Rules.Parameter.rest g itemEnd true
  refine @takesItem_marker _ g .star '*' body (.inr rfl) ?_ ?_
  · intro layout spaced text after h
    refine runs_then (runs_peek parameterStart) fun next => ?_
    rintro c hc ⟨rfl, hat⟩
    exact h c hc hat
  · rintro layout _ ⟨s, rest, rfl, hs⟩
    refine runs_then (runs_take .sign) fun _ => ?_
    refine (runs_optional hs.isBoundary _ hs.startsNothing _).mono (fun c h => ⟨layout, .inl h⟩) ?_
    exact fun _ _ _ h => ⟨by simp [h.1], h.2⟩

/-- What is copied into a parameter is taken there: the text behind its name, or the whole
parameter. A name alone, the slash and a lone star hold nothing that is copied. -/
def TakesCopies (g : Grammar source) : Tree → Prop
  | .node .named (.leaf .name _ :: tail) => tail ≠ [] → TakesTail g tail
  | .node .slash _ => True
  | .node .star [_] => True
  | t => TakesItem g t

/-- Whether nothing is copied into a parameter. -/
def copiesNothing : Tree → Bool
  | .node .named [.leaf .name _] => true
  | .node .slash _ => true
  | .node .star [_] => true
  | _ => false

theorem takesCopies_of_copiesNothing {t : Tree} (h : copiesNothing t = true) : TakesCopies g t := by
  unfold copiesNothing at h
  split at h
  · exact fun htail => absurd rfl htail
  · trivial
  · trivial
  · cases h

theorem takesItem_of_takesCopies {t : Tree} (ht : IsParameter t)
    (hname : ∀ name tail, t = .node .named (.leaf .name name :: tail) → IsIdentifier name)
    (h : TakesCopies g t) : TakesItem g t := by
  cases ht with
  | named hnamed =>
      obtain @⟨name, typed, given, hint, default, hhint, hdefault⟩ := hnamed
      refine takesItem_named (.intro hhint hdefault) (hname _ _ rfl) ?_
      by_cases htail : typed ++ given = []
      · rw [htail]
        exact takesTail_nil
      · exact h htail
  | star rest =>
      cases rest with
      | nil => exact takesItem_star
      | cons _ _ => exact h
  | slash => exact takesItem_slash
  | keywords rest => exact h
  | tuple rest => exact h

end

/-- A parameter behind a comma and a blank. -/
def behindComma (t : Tree) : List Tree :=
  [.leaf .sign [','], .gap .blank [' '], t]

/-- Parameters with a comma and a blank between any two. -/
def separated : List Tree → List Tree
  | [] => []
  | t :: ts => t :: ts.flatMap behindComma

/-- Parameters in brackets. -/
def listOf (ts : List Tree) : List Tree :=
  .leaf .sign ['('] :: (separated ts ++ [.leaf .sign [')']])

theorem length_le_behindComma (ts : List Tree) :
    ts.length ≤ (spellAll (ts.flatMap behindComma)).length := by
  induction ts with
  | nil => simp
  | cons t ts ih =>
      simp only [List.flatMap_cons, spellAll_append, List.length_append, List.length_cons]
      simp only [behindComma, spellAll, spell, List.length_append, List.length_cons]
      omega

theorem stops_behindComma (ts : List Tree) (rest : List Char) :
    Stops (spellAll (ts.flatMap behindComma) ++ ')' :: rest) := by
  cases ts with
  | nil => exact ⟨')', rest, rfl, .closing⟩
  | cons t ts => exact ⟨',', _, rfl, .comma⟩

section

variable {g : Grammar source} {ts : List Tree}

theorem runs_sign {s : Char} (hs : IsBoundary s) (rest : List Char) (e : Expect) :
    Runs (Meets (s :: rest)) (sign e [s] : Parser source Unit) fun _ c ts =>
      ts = [.leaf .sign [s]] ∧ ∃ layout, At layout none rest c := by
  refine runs_then (runs_peek_meets hs rest e) fun next => ?_
  rintro c hc ⟨layout, rfl, h⟩
  rw [if_pos (by simp [Next.isSign, nextOf])]
  obtain ⟨_, c', us, hrun, htold, hts, hat⟩ := runs_take .sign c hc h
  exact ⟨(), c', us, hrun, htold, hts, layout, hat⟩

/-- A parameter behind a comma is read in one turn of the list. -/
theorem runs_nextItem {t : Tree} (ht : TakesItem g t) {rest : List Char} (hrest : Stops rest)
    (several : Bool) :
    Runs (Meets (spellAll (behindComma t) ++ rest))
      (nextItem itemEnd parameterStart startsParameter (parameter g itemEnd true) (several, false))
      fun found c us => us = behindComma t ∧ found = some (true, false) ∧ Meets rest c := by
  have hspell : spellAll (behindComma t) ++ rest = ',' ::
    (spellAll (spacing true) ++ (spell t ++ rest)) := by
    simp [behindComma, spellAll, spell, spacing]
  have hstarts (layout : Layout) := ht.starts layout true rest hrest
  have hitem (layout : Layout) := ht.runs layout true rest hrest
  rw [hspell]
  generalize spellAll (spacing true) ++ (spell t ++ rest) = text at hstarts hitem ⊢
  refine runs_then (runs_peek_meets .comma text _) fun next => ?_
  rintro c hc ⟨layout, rfl, h⟩
  refine runs_then (runs_take .sign) (fun _ => runs_then (runs_peek_fresh _) fun next => ?_) c hc h
  rintro c hc ⟨rfl, h⟩
  rw [show parameterStart.union itemEnd = listStart from rfl, if_pos (hstarts layout)]
  exact runs_then (hitem layout) (fun _ => runs_pure fun _ h =>
    ⟨by simp [behindComma, spacing], rfl, h⟩) c hc h

theorem runs_ended {s : Char} (hs : IsBoundary s) (hcomma : s ≠ ',') (rest : List Char)
    (several : Bool) :
    Runs (Meets (s :: rest))
      (nextItem itemEnd parameterStart startsParameter (parameter g itemEnd true) (several, false))
      fun found c us => us = [] ∧ found = none ∧ Meets (s :: rest) c := by
  refine runs_then (runs_peek_meets hs rest _) fun next => ?_
  rintro c hc ⟨layout, rfl, h⟩
  rw [if_pos (by simpa [Next.isSign, nextOf] using hcomma)]
  exact ⟨none, c, [], rfl, Told.refl hc, rfl, rfl, layout, .inr ⟨s, rest, rfl, h⟩⟩

theorem runs_items (hts : ∀ t ∈ ts, TakesItem g t) (rest : List Char) {fuel : Nat}
    (hfuel : ts.length < fuel)
    (several : Bool) :
    Runs (Meets (spellAll (ts.flatMap behindComma) ++ ')' :: rest))
      (loop.go (nextItem itemEnd parameterStart startsParameter (parameter g itemEnd true)) fuel
        (several, false))
      fun _ c us => us = ts.flatMap behindComma ∧ Meets (')' :: rest) c := by
  obtain ⟨fuel, rfl⟩ : ∃ n, fuel = n + 1 := ⟨fuel - 1, by omega⟩
  induction ts generalizing fuel several with
  | nil =>
      refine runs_then (runs_ended .closing (by decide) rest several) fun found => ?_
      rintro c hc ⟨rfl, h⟩
      exact ⟨_, c, [], rfl, Told.refl hc, rfl, h⟩
  | cons t ts ih =>
      obtain ⟨ht, hts⟩ := List.forall_mem_cons.mp hts
      rw [List.flatMap_cons, spellAll_append, List.append_assoc]
      refine runs_then (runs_nextItem ht (stops_behindComma ts rest) several) fun found => ?_
      rintro c hc ⟨rfl, h⟩
      rw [List.length_cons] at hfuel
      obtain ⟨fuel, rfl⟩ : ∃ n, fuel = n + 1 := ⟨fuel - 1, by omega⟩
      obtain ⟨state, c', us, hrun, htold, rfl, hmeets⟩ := ih hts true fuel (by omega) c hc h
      exact ⟨state, c', _, hrun, htold, rfl, hmeets⟩

theorem Meets.left {text : List Char} {c : Cursor source} (h : Meets text c) :
    c.left = text.length := by
  obtain ⟨layout, h | ⟨s, rest, -, h⟩⟩ := h
  · exact h.left
  · exact h.left

theorem runs_moreItems (hts : ∀ t ∈ ts, TakesItem g t) (rest : List Char) :
    Runs (Meets (spellAll (ts.flatMap behindComma) ++ ')' :: rest))
      (moreItems itemEnd parameterStart startsParameter (parameter g itemEnd true))
      fun _ c us => us = ts.flatMap behindComma ∧ Meets (')' :: rest) c := by
  have hloop : Runs (Meets (spellAll (ts.flatMap behindComma) ++ ')' :: rest))
      (loop (nextItem itemEnd parameterStart startsParameter (parameter g itemEnd true))
        (false, false))
      fun _ c us => us = ts.flatMap behindComma ∧ Meets (')' :: rest) c := by
    intro c hc h
    have hfuel : ts.length < c.left + 2 := by
      have hle := length_le_behindComma ts
      rw [h.left, List.length_append]
      omega
    exact runs_items hts rest hfuel false c hc h
  exact runs_then hloop fun _ => runs_pure fun _ h => ⟨List.append_nil _, h⟩

theorem runs_parameterList {t : Tree} (ht : TakesItem g t) (hts : ∀ t ∈ ts, TakesItem g t)
    (layout : Layout)
    (rest : List Char) :
    let text := spell t ++ (spellAll (ts.flatMap behindComma) ++ ')' :: rest)
    Runs (At layout (some (lookAt listStart layout text)) text)
      (parameterList g itemEnd true) fun _ c us =>
      us = separated (t :: ts) ∧ Meets (')' :: rest) c := by
  refine runs_then (ht.runs layout false _ (stops_behindComma ts rest)) fun _ => ?_
  refine runs_then (runs_moreItems hts rest) fun _ => runs_pure fun _ h => ⟨?_, h⟩
  simp [spacing, separated]

theorem runs_closing (rest : List Char) :
    Runs (Meets (')' :: rest)) (sign itemEnd [')'] : Parser source Unit) fun _ c us =>
      us = [.leaf .sign [')']] ∧ Meets rest c :=
  (runs_sign .closing rest itemEnd).mono (fun _ h => h) fun _ _ _ ⟨hts, layout, h⟩ =>
    ⟨hts, layout, .inl h⟩

theorem runs_opened (hts : ∀ t ∈ ts, TakesItem g t) (layout : Layout) (rest : List Char) :
    Runs (At layout none (spellAll (separated ts) ++ ')' :: rest)) (do
      if startsParameter (← peek { itemEnd with power := true }) then parameterList g itemEnd true
      sign itemEnd [')'])
      fun _ c us => us = separated ts ++ [.leaf .sign [')']] ∧ Meets rest c := by
  cases ts with
  | nil =>
      have hmeets (c : Cursor source) (h : At layout none (')' :: rest) c) :
        Meets (')' :: rest) c :=
        ⟨layout, .inl h⟩
      refine (runs_then (runs_peek_meets .closing rest _) fun next => ?_).mono hmeets fun _ _ _ h =>
        h
      rintro c hc ⟨layout, rfl, h⟩
      rw [show startsParameter (nextOf .symbol false layout [')']) = false from rfl]
      exact runs_closing rest c hc ⟨layout, .inr ⟨')', rest, rfl, h⟩⟩
  | cons t ts =>
      obtain ⟨ht, hts⟩ := List.forall_mem_cons.mp hts
      have hstarts := ht.starts layout false _ (stops_behindComma ts rest)
      have hrun := runs_parameterList ht hts layout rest
      have hspell : spellAll (separated (t :: ts)) ++ ')' :: rest =
          spell t ++ (spellAll (ts.flatMap behindComma) ++ ')' :: rest) := by
        simp [separated, spellAll]
      rw [hspell]
      change startsParameter (lookAt listStart layout
        (spell t ++ (spellAll (ts.flatMap behindComma) ++ ')' :: rest))) = true at hstarts
      -- The text stays whole from here on: only what a look ahead finds in it matters.
      generalize spell t ++ (spellAll (ts.flatMap behindComma) ++ ')' :: rest) =
        text at hstarts hrun ⊢
      refine runs_then (runs_peek_fresh _) fun next => ?_
      rintro c hc ⟨rfl, h⟩
      rw [show ({ itemEnd with power := true } : Expect) = listStart from rfl, if_pos hstarts]
      refine runs_then hrun (fun _ => ?_) c hc h
      exact (runs_closing rest).mono (fun _ h => h) fun _ _ _ h => ⟨by simp [h.1], h.2⟩

theorem runs_parameters (hts : ∀ t ∈ ts, TakesItem g t) (rest : List Char) :
    Runs (Meets (spellAll (listOf ts) ++ rest)) (parameters g) fun _ c us =>
      us = [.node .parameters (listOf ts)] ∧ Meets rest c := by
  have hspell : spellAll (listOf ts) ++ rest = '(' :: (spellAll (separated ts) ++ ')' :: rest) := by
    simp [listOf, spellAll, spell, spellAll_append]
  rw [hspell]
  have hopened (layout : Layout) := runs_opened hts layout rest
  generalize spellAll (separated ts) ++ ')' :: rest = text at hopened ⊢
  have hbody : Runs (Meets ('(' :: text)) (do
      sign {} ['(']
      if startsParameter (← peek { itemEnd with power := true }) then parameterList g itemEnd true
      sign itemEnd [')']) fun _ c us => us = listOf ts ∧ Meets rest c := by
    refine runs_then (runs_sign .opening text {}) fun _ => ?_
    rintro c hc ⟨layout, h⟩
    exact (hopened layout).mono (fun _ h => h) (fun _ _ _ h => ⟨by simp [h.1, listOf], h.2⟩) c hc h
  have hgaps : Runs (Meets ('(' :: text)) (passGaps {} : Parser source Unit) fun _ c us =>
      us = [] ∧ Meets ('(' :: text) (c.opened .parameters) := by
    refine runs_then (runs_peek_meets .opening text {}) fun next => ?_
    rintro c hc ⟨layout, rfl, h⟩
    obtain ⟨_, c', us, hrun, htold, hus, hat⟩ := runs_pass false c hc h
    exact ⟨(), c', us, hrun, htold, hus, layout,
      .inr ⟨'(', text, rfl, hat.layout, hat.ahead, hat.rest, hat.left⟩⟩
  exact runs_node hgaps (hbody.mono (fun _ h => h) fun _ _ _ h => ⟨h.1, h.2.closed⟩)

end

end Cythonizer.Proofs.Source.Rereading
