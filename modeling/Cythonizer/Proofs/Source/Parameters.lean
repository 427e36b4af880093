import Cythonizer.Proofs.Source.Phrases

namespace Cythonizer.Proofs.Source.Parameters

open Cythonizer.Source.Reader
open Cythonizer.Source.Rules.Collection
open Cythonizer.Source.Rules.Parameter
open Cythonizer.Source.Rules.Phrases
open Cythonizer.Source.Lexemes
open Cythonizer.Source.Trees
open Cythonizer.Proofs.Source.Contents
open Cythonizer.Proofs.Source.Edges
open Cythonizer.Proofs.Source.Phrases
open Cythonizer.Proofs.Source.Phrasing
open Cythonizer.Proofs.Source.Telling

variable {source : List Char} {α : Type}

/-- A construct behind a sign, or nothing at all. -/
inductive IsAttached (kind : Kind) (sign : List Char) : List Tree → Option (List Tree) → Prop
  | none : IsAttached kind sign [] none
  | some {gaps between children : List Tree} (hgaps : AreGaps gaps) (hbetween : AreGaps between) :
      IsAttached kind sign (gaps ++ .leaf .sign sign :: (between ++ [.node kind children]))
        (some children)

/-- A name with the type hint behind its colon and the default behind its `=`. -/
inductive IsNamed : List Tree → List Char → Option (List Tree) → Option (List Tree) → Prop
  | intro {name : List Char} {typed given : List Tree} {hint default : Option (List Tree)}
      (hhint : IsAttached .hint [':'] typed hint)
      (hdefault : IsAttached .default ['='] given default) :
      IsNamed (.leaf .name name :: (typed ++ given)) name hint default

/-- A parameter: a name, a star with or without a name behind it, the slash, a name behind two
stars, or names in brackets. -/
inductive IsParameter : Tree → Prop
  | named {children : List Tree} {name : List Char} {hint default : Option (List Tree)}
      (h : IsNamed children name hint default) : IsParameter (.node .named children)
  | star (rest : List Tree) : IsParameter (.node .star (.leaf .sign ['*'] :: rest))
  | slash : IsParameter (.node .slash [.leaf .sign ['/']])
  | keywords (rest : List Tree) : IsParameter (.node .special (.leaf .sign ['*', '*'] :: rest))
  | tuple (rest : List Tree) : IsParameter (.node .special (.leaf .sign ['('] :: rest))

/-- Gaps with one more tree behind them. -/
def IsBehindGaps (K : Tree → Prop) (ts : List Tree) : Prop :=
  ∃ gaps t, AreGaps gaps ∧ K t ∧ ts = gaps ++ [t]

/-- What follows an item of a list: more items, each behind a comma, and perhaps a comma at the end.
-/
inductive IsChain (K : Tree → Prop) : List Tree → Prop
  | nil : IsChain K []
  | comma {gaps : List Tree} (hgaps : AreGaps gaps) : IsChain K (gaps ++ [.leaf .sign [',']])
  | more {gaps item rest : List Tree} (hgaps : AreGaps gaps) (hitem : IsBehindGaps K item)
      (hrest : IsChain K rest) : IsChain K (gaps ++ .leaf .sign [','] :: (item ++ rest))

/-- The items of a list, if it has any. -/
inductive IsItems (K : Tree → Prop) : List Tree → Prop
  | none : IsItems K []
  | some {item rest : List Tree} (hitem : IsBehindGaps K item) (hrest : IsChain K rest) :
      IsItems K (item ++ rest)

/-- A list of parameters in brackets. -/
inductive IsParameterList : List Tree → Prop
  | intro {items gaps : List Tree} (hitems : IsItems IsParameter items) (hgaps : AreGaps gaps) :
      IsParameterList (.leaf .sign ['('] :: (items ++ (gaps ++ [.leaf .sign [')']])))

section

variable {K L : Tree → Prop} [HasGaps L] (hsign : ∀ text, L (.leaf .sign text))
    (hKL : ∀ t, K t → L t)
  {ts : List Tree}

include hKL

theorem forall_isBehindGaps (h : IsBehindGaps K ts) : ∀ t ∈ ts, L t := by
  obtain ⟨gaps, t, hgaps, ht, rfl⟩ := h
  exact forall_mem_append (forall_of_areGaps hgaps) (by simpa using hKL t ht)

include hsign

theorem forall_isChain (h : IsChain K ts) : ∀ t ∈ ts, L t := by
  induction h with
  | nil => simp
  | comma hgaps => exact forall_mem_append (forall_of_areGaps hgaps) (by simpa using hsign _)
  | more hgaps hitem _ ih =>
      refine forall_mem_append (forall_of_areGaps hgaps) (List.forall_mem_cons.mpr ⟨hsign _, ?_⟩)
      exact forall_mem_append (forall_isBehindGaps hKL hitem) ih

end

theorem forall_isParameterList {L : Tree → Prop} [HasGaps L] (hsign : ∀ text, L (.leaf .sign text))
    (h : ∀ t, IsParameter t → L t) {ts : List Tree} (hts : IsParameterList ts) : ∀ t ∈ ts, L t := by
  obtain ⟨hitems, hgaps⟩ := hts
  refine List.forall_mem_cons.mpr ⟨hsign _, forall_mem_append ?_ ?_⟩
  · cases hitems with
    | none => simp
    | some hitem hrest =>
        exact forall_mem_append (forall_isBehindGaps h hitem) (forall_isChain hsign h hrest)
  · exact forall_mem_append (forall_of_areGaps hgaps) (by simpa using hsign _)

section

variable {m : Type → Type} [Monad m] [Reading source m] [Outcomes source m]

/-- A sign that was looked at and a construct behind it. -/
theorem tells_attached {kind : Kind} {sign : List Char} {next : Next} {x : m Unit}
    (hnext : next.isSign sign = true)
    (hx : Tells anywhere x fun _ _ ts => ∃ gaps children, AreGaps gaps ∧ ts = gaps ++
      [.node kind children]) :
    Tells (facing next) (take .sign >>= fun _ => x) fun _ _ ts =>
      ∃ found, IsAttached kind sign ts found := by
  obtain ⟨-, rfl⟩ := (isSign_iff next sign).mp hnext
  refine tells_bind (tells_take_facing .sign next) fun _ ts => ?_
  rintro c hc ⟨gaps, hgaps, rfl⟩ way hway
  obtain ⟨_, htold, between, children, hbetween, rfl⟩ := hx c hc trivial way hway
  exact ⟨_, htold, some children, by simpa using IsAttached.some hgaps hbetween⟩

theorem tells_some_node (kind : Kind) (e : Expect) {body : m α} [TellsPhrases body] :
    Tells anywhere (node kind e body) fun _ _ ts =>
      ∃ gaps children, AreGaps gaps ∧ ts = gaps ++ [.node kind children] := by
  have hbody : TellsPhrases body := inferInstance
  refine (tells_node hbody.tells).mono (fun _ h => h) ?_
  rintro _ _ _ ⟨gaps, children, hgaps, -, rfl⟩
  exact ⟨gaps, children, hgaps, rfl⟩

/-- A construct that begins with the lexeme that was looked at. -/
theorem tells_parameter_node {kind : Kind} {e : Expect} {next : Next} {body : m α}
    {inside : List Tree → Prop} (h : Tells (facing (bare next)) body fun _ _ ts => inside ts)
    (hnode : ∀ children, inside children → IsParameter (.node kind children)) :
    Tells (facing next) (node kind e body) fun _ _ ts => IsBehindGaps IsParameter ts := by
  refine (tells_node_facing h).mono (fun _ h => h) ?_
  rintro _ _ _ ⟨gaps, children, hgaps, hinside, rfl⟩
  exact ⟨gaps, _, hgaps, hnode children hinside, rfl⟩

end

section

variable {g : Grammar source} [FlushGrammar g] {before : Cursor source → Prop}

theorem tells_parameterType (after : Expect) :
    Tells before (parameterType g after true) fun _ _ ts =>
      ∃ found, IsAttached .hint [':'] ts found := by
  unfold parameterType
  refine tells_peek_bind fun next => tells_ite (fun h => ?_) fun _ => ?_
  · exact tells_attached (by simpa using h) (tells_some_node .hint typeStart)
  · exact tells_pure fun _ _ => ⟨none, .none⟩

theorem tells_parameterDefault (after : Expect) :
    Tells before (parameterDefault g after) fun _ _ ts =>
      ∃ found, IsAttached .default ['='] ts found := by
  unfold parameterDefault
  refine tells_peek_bind fun next => tells_ite (fun h => ?_) fun _ => ?_
  · exact tells_attached h (tells_some_node .default operandStart)
  · exact tells_pure fun _ _ => ⟨none, .none⟩

theorem tells_name_first (next : Next) :
    Tells (facing (bare next)) (name {} : Parser source Unit) fun _ _ ts =>
      ts = [.leaf .name next.text] :=
  tells_step <| tells_peek_bind_facing <| tells_ite (fun _ => tells_take_bare .name next) fun _ =>
    tells_fail

theorem tells_named (next : Next) (after : Expect) :
    Tells (facing (bare next)) (do
      name {}
      parameterType g after true
      parameterDefault g after : Parser source Unit) fun _ _ ts =>
        ∃ name hint default, IsNamed ts name hint default := by
  refine tells_bind (tells_name_first next) fun _ ts => ?_
  rintro c hc rfl way hway
  have hrest : Tells anywhere (do
      parameterType g after true
      parameterDefault g after : Parser source Unit) fun _ _ ts =>
        ∃ typed given, ts = typed ++ given ∧
          (∃ hint, IsAttached .hint [':'] typed hint) ∧
            ∃ default, IsAttached .default ['='] given default := by
    refine tells_bind (tells_parameterType after) fun _ typed => ?_
    intro c hc htyped way hway
    have hdefault : Tells anywhere (parameterDefault g after) _ := tells_parameterDefault after
    obtain ⟨given, htold, hgiven⟩ := hdefault c hc trivial way hway
    exact ⟨given, htold, typed, given, rfl, htyped, hgiven⟩
  obtain ⟨ts, htold, typed, given, hts, ⟨hint, hhint⟩, default, hdefault⟩ :=
    hrest c hc trivial way hway
  have hnamed : IsNamed (.leaf .name next.text :: (typed ++ given)) next.text hint default :=
    .intro hhint hdefault
  exact ⟨ts, htold, next.text, hint, default, hts ▸ hnamed⟩

theorem tells_parameter (after : Expect) :
    Tells before (parameter g after true) fun _ _ ts => IsBehindGaps IsParameter ts := by
  unfold parameter
  refine tells_peek_bind fun next => tells_ite (fun h => ?_) fun _ =>
    tells_ite (fun h => ?_) fun _ =>
    tells_ite (fun h => ?_) fun _ => tells_ite (fun h => ?_) fun _ => ?_
  · obtain ⟨-, htext⟩ := (isSign_iff next _).mp h
    refine tells_parameter_node (tells_take_bare .sign next) ?_
    rintro _ rfl
    exact htext ▸ .slash
  · obtain ⟨-, htext⟩ := (isSign_iff next _).mp h
    refine tells_parameter_node (tells_first_bind tells_take_first) ?_
    rintro _ ⟨rest, rfl⟩
    exact htext ▸ .keywords rest
  · obtain ⟨-, htext⟩ := (isSign_iff next _).mp h
    refine tells_parameter_node (tells_first_bind tells_take_first) ?_
    rintro _ ⟨rest, rfl⟩
    exact htext ▸ .star rest
  · obtain ⟨-, htext⟩ := (isSign_iff next _).mp h
    refine tells_parameter_node (tells_first_bind (FlushGrammar.opens next)) ?_
    rintro _ ⟨rest, rfl⟩
    exact htext ▸ .tuple rest
  · refine tells_parameter_node (tells_named next after) ?_
    rintro _ ⟨name, hint, default, h⟩
    exact .named h

end

section

variable {K : Tree → Prop} {after start : Expect} {starts : Next → Bool} {item : Parser source Unit}

/-- One turn of reading the items of a list. Behind a comma without an item the list has ended. -/
def nextItem (after start : Expect) (starts : Next → Bool) (item : Parser source Unit)
    (state : Bool × Bool) : Parser source (Option (Bool × Bool)) := do
  if state.2 || !(← peek (operandEnd after)).isSign [','] then return none
  take .sign
  if starts (← peek (start.union after)) then
    item
    return some (true, false)
  else return some (true, true)

/-- What one turn tells, and the state it goes on in. -/
inductive Turn (K : Tree → Prop) : Option (Bool × Bool) → List Tree → Prop
  | ended : Turn K none []
  | item {gaps between : List Tree} (hgaps : AreGaps gaps) (hbetween : IsBehindGaps K between) :
      Turn K (some (true, false)) (gaps ++ .leaf .sign [','] :: between)
  | comma {gaps : List Tree} (hgaps : AreGaps gaps) :
      Turn K (some (true, true)) (gaps ++ [.leaf .sign [',']])

theorem tells_nextItem (hitem : Tells anywhere item fun _ _ ts => IsBehindGaps K ts)
    (several : Bool) :
    Tells anywhere (nextItem after start starts item (several, false)) fun found _ ts =>
      Turn K found ts := by
  refine tells_peek_bind fun next => tells_ite (fun _ => tells_pure fun _ _ => .ended) fun h => ?_
  have hcomma : next.text = [','] := ((isSign_iff next _).mp (by simpa using h)).2
  have hrest : Tells anywhere (do
      if starts (← peek (start.union after)) then
        item
        return some (true, false)
      else return some (true, true) : Parser source (Option (Bool × Bool))) fun found _ ts =>
        found = some (true, false) ∧ IsBehindGaps K ts ∨ found = some (true, true) ∧ ts = [] := by
    refine tells_peek_bind fun _ => tells_ite (fun _ => ?_) fun _ =>
      tells_pure fun _ _ => .inr ⟨rfl, rfl⟩
    exact tells_bind (hitem.mono (fun _ _ => trivial) fun _ _ _ h => h) fun _ _ =>
      tells_pure fun _ h => .inl ⟨rfl, by simpa using h⟩
  refine tells_bind (tells_take_facing .sign next) fun _ ts => ?_
  rintro c hc ⟨gaps, hgaps, rfl⟩ way hway
  obtain ⟨us, htold, ⟨hfound, hitem⟩ | ⟨hfound, rfl⟩⟩ := hrest c hc trivial way hway
  · refine ⟨us, htold, ?_⟩
    rw [hfound, hcomma]
    simpa using Turn.item hgaps hitem
  · refine ⟨[], htold, ?_⟩
    rw [hfound, hcomma]
    simpa using Turn.comma hgaps

theorem tells_ended (fuel : Nat) (several : Bool) :
    Tells anywhere (loop.go (nextItem after start starts item) fuel (several, true)) fun _ _ ts =>
      ts = [] := by
  cases fuel with
  | zero => exact tells_pure fun _ _ => rfl
  | succ fuel =>
      have hnone :
        Tells anywhere (nextItem after start starts item (several, true)) fun found _ ts =>
          found = none ∧ ts = [] :=
        tells_peek_bind fun _ => tells_pure fun _ _ => ⟨rfl, rfl⟩
      refine tells_bind hnone fun found ts => ?_
      rintro c hc ⟨rfl, rfl⟩ way hway
      obtain rfl := (Outcomes.mem_pure _ _ _).mp hway
      exact ⟨[], Told.refl hc, rfl⟩

theorem tells_items (hitem : Tells anywhere item fun _ _ ts => IsBehindGaps K ts) (fuel : Nat)
    (several : Bool) :
    Tells anywhere (loop.go (nextItem after start starts item) fuel (several, false))
      fun _ _ ts => IsChain K ts := by
  induction fuel generalizing several with
  | zero => exact tells_pure fun _ _ => .nil
  | succ fuel ih =>
      refine tells_bind (tells_nextItem hitem several) fun found ts => ?_
      rintro c hc (_ | ⟨hgaps, hbetween⟩ | hgaps) way hway
      · obtain rfl := (Outcomes.mem_pure _ _ _).mp hway
        exact ⟨[], Told.refl hc, .nil⟩
      · obtain ⟨us, htold, hchain⟩ := ih true c hc trivial way hway
        exact ⟨us, htold, by simpa using IsChain.more hgaps hbetween hchain⟩
      · obtain ⟨us, htold, rfl⟩ := tells_ended fuel true c hc trivial way hway
        exact ⟨[], htold, by simpa using IsChain.comma hgaps⟩

theorem tells_moreItems (hitem : Tells anywhere item fun _ _ ts => IsBehindGaps K ts)
    {before : Cursor source → Prop} :
    Tells before (moreItems after start starts item) fun _ _ ts => IsChain K ts := by
  have hloop : Tells before (loop (nextItem after start starts item) (false, false)) fun _ _ ts =>
      IsChain K ts := by
    apply tells_of_forall
    intro c hc _ a c' hrun
    exact tells_items hitem _ false c hc trivial _ ((mem_outcomes_iff _ _ _).mpr hrun)
  exact tells_bind hloop fun _ _ => tells_pure fun _ h => by simpa using h

end

theorem tells_parameterList {g : Grammar source} [FlushGrammar g] (after : Expect) :
    Tells anywhere (parameterList g after true) fun _ _ ts => IsItems IsParameter ts := by
  refine tells_bind (tells_parameter after) fun _ ts c hc hitem => ?_
  have hrest : Tells anywhere (do
      let _ ← moreItems after parameterStart startsParameter (parameter g after true) :
        Parser source Unit)
        fun _ _ ts => IsChain IsParameter ts :=
    tells_bind (tells_moreItems (tells_parameter after)) fun _ _ => tells_pure fun _ h =>
      by simpa using h
  intro way hway
  obtain ⟨us, htold, hchain⟩ := hrest c hc trivial way hway
  exact ⟨us, htold, .some hitem hchain⟩

theorem tells_sign_first (e : Expect) (next : Next) (text : List Char) :
    Tells (facing (bare next)) (sign e text : Parser source Unit) fun _ _ ts =>
      ts = [.leaf .sign text] := by
  refine tells_step (tells_peek_bind_facing (tells_ite (fun h => ?_) fun _ => tells_fail))
  obtain ⟨-, htext⟩ := (isSign_iff (bare next) text).mp h
  exact htext ▸ tells_take_bare .sign next

theorem tells_closed {g : Grammar source} [FlushGrammar g] :
    Tells anywhere (do
      if startsParameter (← peek { itemEnd with power := true }) then parameterList g itemEnd true
      sign itemEnd [')'] : Parser source Unit) fun _ _ ts =>
        ∃ items gaps, IsItems IsParameter items ∧
        AreGaps gaps ∧ ts = items ++ (gaps ++ [.leaf .sign [')']]) := by
  have hclose : Tells anywhere (sign itemEnd [')'] : Parser source Unit) _ :=
    tells_sign itemEnd [')']
  refine tells_peek_bind fun _ => tells_ite (fun _ => ?_) fun _ => ?_
  · refine tells_bind ((tells_parameterList itemEnd).mono (fun _ _ => trivial) fun _ _ _ h =>
      h) fun _ items => ?_
    intro c hc hitems way hway
    obtain ⟨_, htold, gaps, hgaps, rfl⟩ := hclose c hc trivial way hway
    exact ⟨_, htold, items, gaps, hitems, hgaps, rfl⟩
  · intro c hc _ way hway
    obtain ⟨_, htold, gaps, hgaps, rfl⟩ := hclose c hc trivial way hway
    exact ⟨_, htold, [], gaps, .none, hgaps, rfl⟩

theorem tells_parameters {g : Grammar source} [FlushGrammar g] :
    Tells anywhere (parameters g) fun _ _ ts =>
      ∃ gaps children, AreGaps gaps ∧ IsParameterList children ∧ ts = gaps ++
        [.node .parameters children] := by
  have hbody (next : Next) : Tells (facing (bare next)) (do
      sign {} ['(']
      if startsParameter (← peek { itemEnd with power := true }) then parameterList g itemEnd true
      sign itemEnd [')'] : Parser source Unit) fun _ _ ts => IsParameterList ts := by
    refine tells_bind (tells_sign_first {} next ['(']) fun _ ts => ?_
    rintro c hc rfl way hway
    obtain ⟨_, htold, items, gaps, hitems, hgaps, rfl⟩ := tells_closed c hc trivial way hway
    exact ⟨_, htold, .intro hitems hgaps⟩
  have hwithin : Tells (fun c => ∃ next, facing (bare next) c) _ fun _ _ ts => IsParameterList ts :=
    fun c hc ⟨next, hfacing⟩ way hway => hbody next c hc hfacing way hway
  exact tells_node_after (tells_passGaps {}) hwithin

end Cythonizer.Proofs.Source.Parameters
