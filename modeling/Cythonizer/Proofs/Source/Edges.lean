import Cythonizer.Proofs.Source.Phrasing

namespace Cythonizer.Proofs.Source.Edges

open Cythonizer.Source.Branches
open Cythonizer.Source.Reader
open Cythonizer.Source.Keywords
open Cythonizer.Source.Lexemes
open Cythonizer.Source.Trees
open Cythonizer.Proofs.Source.Contents
open Cythonizer.Proofs.Source.Phrasing
open Cythonizer.Proofs.Source.Telling

variable {source : List Char} {α β σ : Type}

/-- Phrases that begin and end with lexemes, one at least. -/
structure Solid (ts : List Tree) : Prop where
  ne_nil : ts ≠ []
  flush : Flush ts
  neat : All IsNeat ts

theorem solid_singleton {t : Tree} (h : IsNeat t) (hgap : ∀ g text, t ≠ .gap g text) :
    Solid [t] where
  ne_nil := by simp
  flush := ⟨by simpa [Begins] using hgap, by simpa [Ends] using hgap⟩
  neat := by simpa [All] using h

section

variable {m : Type → Type} [Monad m] [Reading source m] [Outcomes source m]

/-- A reader of phrases that tells no gap at the end, and none at the start if none is ahead. -/
class TellsFlush (x : m α) : Prop where
  tells : Tells anywhere x fun _ _ ts => All IsNeat ts ∧ Ends ts
  begins (next : Next) : Tells (facing (bare next)) x fun _ c ts =>
    ts = [] ∧ facing (bare next) c ∨ ts ≠ [] ∧ Begins ts

/-- A reader that only looks ahead. -/
class TellsNothing (x : m α) : Prop where
  tells : Tells anywhere x fun _ _ ts => ts = []
  facing (next : Next) : Tells (facing next) x fun _ c _ => facing next c

/-- A reader that tells something. -/
class TellsSome (x : m α) : Prop where
  tells : Tells anywhere x fun _ _ ts => ts ≠ []

/-- A reader that tells phrases between lexemes if it begins behind a mark. -/
class TellsBehind (since : Nat) (x : m α) : Prop where
  tells (next : Next) : Tells (fun c => facing (bare next) c ∧ c.log.length = since) x fun _ _ ts =>
    Solid ts

instance (priority := low) {x : m α} [h : TellsFlush x] : TellsPhrases x :=
  ⟨h.tells.mono (fun _ h => h) fun _ _ _ h => h.1⟩

theorem TellsNothing.tells_facing {x : m α} (h : TellsNothing x) (next : Next) :
    Tells (Telling.facing next) x fun _ c ts => ts = [] ∧ Telling.facing next c :=
  (h.tells.mono (fun _ _ => trivial) fun _ _ _ h => h).and (h.facing next)

instance {x : m α} [h : TellsNothing x] : TellsFlush x where
  tells := h.tells.mono (fun _ h => h) fun _ _ _ hts => by
    rw [hts]
    exact ⟨by simp [All], ends_nil⟩
  begins next := (h.tells_facing (bare next)).mono (fun _ h => h) fun _ _ _ h => .inl h

instance (a : α) : TellsNothing (pure a : m α) where
  tells := tells_pure fun _ _ => rfl
  facing _ := tells_pure fun _ h => h

theorem tells_silent_bind {before : Next} {x : m α} {f : α → m β} [hx : TellsNothing x]
    {after : β → Cursor source → List Tree → Prop}
    (hf : ∀ a, Tells (Telling.facing before) (f a) after) :
    Tells (Telling.facing before) (x >>= f) after := by
  refine tells_bind (hx.tells_facing before) fun a ts => ?_
  rintro c hc ⟨rfl, hfacing⟩
  exact hf a c hc hfacing

theorem tells_first_bind {before : Cursor source → Prop} {t : Tree} {x : m α} {f : α → m β}
    (hx : Tells before x fun _ _ ts => ∃ rest, ts = t :: rest) [hf : ∀ a, TellsPhrases (f a)] :
    Tells before (x >>= f) fun _ _ ts => ∃ rest, ts = t :: rest := by
  refine tells_bind hx fun a ts => ?_
  rintro c hc ⟨rest, rfl⟩ way hway
  obtain ⟨us, htold, -⟩ := (hf a).tells c hc trivial way hway
  exact ⟨us, htold, rest ++ us, rfl⟩

theorem tells_take_first {l : Leaf} {next : Next} :
    Tells (facing (bare next)) (take l : m Unit) fun _ _ ts =>
      ∃ rest, ts = .leaf l next.text :: rest :=
  (tells_take_bare l next).mono (fun _ h => h) fun _ _ _ h => ⟨[], h⟩

theorem TellsFlush.bind {x : m α} {f : α → m β} (hx : TellsFlush x) (hf : ∀ a, TellsFlush (f a)) :
    TellsFlush (x >>= f) where
  tells := by
    refine tells_bind hx.tells fun a ts c hc hts way hway => ?_
    obtain ⟨us, htold, hus⟩ := (hf a).tells c hc trivial way hway
    exact ⟨us, htold, forall_mem_append hts.1 hus.1, hts.2.append hus.2⟩
  begins next := by
    refine tells_bind (hx.begins next) fun a ts c hc hts way hway => ?_
    rcases hts with ⟨rfl, hfacing⟩ | ⟨hne, hbegins⟩
    · exact (hf a).begins next c hc hfacing way hway
    · obtain ⟨us, htold, -⟩ := (hf a).tells c hc trivial way hway
      exact ⟨us, htold, .inr ⟨by simp [hne], hbegins.append hne us⟩⟩

instance {x : m α} {f : α → m β} [hx : TellsFlush x] [hf : ∀ a, TellsFlush (f a)] :
    TellsFlush (x >>= f) :=
  hx.bind hf

instance {x : m α} {y : m β} [hx : TellsFlush x] [hy : TellsFlush y] :
    TellsFlush (x >>= fun _ => y) :=
  hx.bind fun _ => hy

instance {p : Prop} [Decidable p] {x y : m α} [hx : TellsFlush x] [hy : TellsFlush y] :
    TellsFlush (if p then x else y) where
  tells := tells_ite (fun _ => hx.tells) fun _ => hy.tells
  begins next := tells_ite (fun _ => hx.begins next) fun _ => hy.begins next

instance {p : Parser source α} [hp : TellsFlush p] : TellsFlush (Reading.step p : m α) where
  tells := tells_step hp.tells
  begins next := tells_step (hp.begins next)

instance : TellsFlush (fail : m α) where
  tells := tells_fail
  begins _ := tells_fail

theorem tells_peek_facing (e : Expect) (next : Next) :
    Tells (facing next) (peek e : m Next) fun _ c _ => facing next c := by
  apply tells_step
  apply tells_of_forall
  intro c hc hfacing a c' h
  simp only [show c.ahead = some next from hfacing, Except.ok.injEq, Prod.mk.injEq] at h
  obtain ⟨-, rfl⟩ := h
  exact ⟨[], Told.refl hc, hfacing⟩

instance (e : Expect) : TellsNothing (peek e : m Next) where
  tells := (tells_peek e).mono (fun _ h => h) fun _ _ _ h => h.1
  facing := tells_peek_facing e

instance (e : Expect) (signs : List (List Char)) : TellsNothing (atSign e signs : m Bool) where
  tells := tells_atSign e signs
  facing _ := tells_step (tells_peek_bind_facing (tells_pure fun _ h => h))

instance (e : Expect) (k : Keyword) : TellsNothing (atWord e k : m Bool) where
  tells := tells_atWord e k
  facing _ := tells_step (tells_peek_bind_facing (tells_pure fun _ h => h))

theorem solid_of_lexed {l : Leaf} {text : List Char} {ts : List Tree} (hl : IsLexeme l text)
    (h : Lexed l text ts) : ts ≠ [] ∧ All IsNeat ts ∧ Ends ts := by
  obtain ⟨gaps, hgaps, rfl⟩ := h
  exact ⟨by simp, forall_of_lexed (.leaf hl) ⟨gaps, hgaps, rfl⟩, by simp [Ends]⟩

theorem tellsFlush_take {l : Leaf} (hl : ∀ text, IsLexeme l text) :
    TellsFlush (take l : m Unit) where
  tells := (tells_take l).mono (fun _ h => h) fun _ _ _ ⟨text, h⟩ => (solid_of_lexed (hl text) h).2
  begins next := (tells_take_bare l next).mono (fun _ h => h) fun _ _ _ hts =>
    .inr (by simp [hts, Begins])

instance : TellsFlush (take .word : m Unit) :=
  tellsFlush_take isLexeme_word

instance : TellsFlush (take .sign : m Unit) :=
  tellsFlush_take isLexeme_sign

instance : TellsFlush (take .literal : m Unit) :=
  tellsFlush_take isLexeme_literal

instance (e : Expect) (text : List Char) : TellsFlush (sign e text : m Unit) := by
  unfold sign
  infer_instance

instance (e : Expect) (k : Keyword) : TellsFlush (keyword e k : m Unit) := by
  unfold keyword
  infer_instance

instance (e : Expect) : TellsFlush (name e : m Unit) where
  tells := (tells_name e).mono (fun _ h => h) fun _ _ _ ⟨_, hname, h⟩ =>
    (solid_of_lexed (isLexeme_name hname) h).2
  begins next := tells_step <| tells_peek_bind_facing <| tells_ite
    (fun _ => (tells_take_bare .name next).mono (fun _ h => h) fun _ _ _ hts =>
      .inr (by simp [hts, Begins]))
    fun _ => tells_fail

theorem tellsFlush_node {kind : Kind} {e : Expect} {body : m α} {inside : List Tree → Prop}
    (hbody : ∀ next, Tells (facing (bare next)) body fun _ _ ts => inside ts)
    (hnode : ∀ children, inside children → IsNeat (.node kind children)) :
    TellsFlush (node kind e body) where
  tells := by
    have hwithin : Tells (fun c => ∃ next, facing (bare next) c) body fun _ _ ts => inside ts :=
      fun c hc ⟨next, hfacing⟩ way hway => hbody next c hc hfacing way hway
    refine (tells_node_after (tells_passGaps e) hwithin).mono (fun _ h => h) ?_
    rintro _ _ _ ⟨gaps, children, hgaps, hinside, rfl⟩
    refine ⟨forall_mem_append (forall_of_areGaps hgaps) ?_, by simp [Ends]⟩
    simpa using hnode children hinside
  begins next := (tells_node_after (P := (· = [])) (tells_passGaps_bare e next) (hbody next)).mono
    (fun _ h => h) fun _ _ _ ⟨gaps, children, hgaps, _, hts⟩ => .inr (by simp [hts, hgaps, Begins])

instance {kind : Kind} [hkind : FlushKind kind] (e : Expect) {body : m α}
    [hbody : TellsFlush body] :
    TellsFlush (node kind e body) := by
  have hinside (next : Next) : Tells (facing (bare next)) body fun _ _ ts =>
    All IsNeat ts ∧ Flush ts := by
    refine ((hbody.tells.mono (fun _ _ => trivial) fun _ _ _ h => h).and (hbody.begins next)).mono
      (fun _ h => h) ?_
    rintro _ _ _ ⟨⟨hneat, hends⟩, ⟨rfl, -⟩ | ⟨-, hbegins⟩⟩
    · exact ⟨hneat, begins_nil, hends⟩
    · exact ⟨hneat, hbegins, hends⟩
  exact tellsFlush_node hinside fun children h => .node hkind h.2 h.1

instance (e : Expect) {body : m α} [hbody : TellsPhrases body] : TellsFlush (node .string e body) :=
  tellsFlush_node (fun _ => hbody.from _) fun _ => .string

instance : TellsNothing (left : m Nat) where
  tells := tells_left
  facing _ := tells_step <| tells_of_forall fun c hc hfacing _ _ h => by
    cases h
    exact ⟨[], Told.refl hc, hfacing⟩

end

section

instance {first second : Parser source α} [h₁ : TellsFlush first] [h₂ : TellsFlush second] :
    TellsFlush (either first second) where
  tells := tells_either h₁.tells h₂.tells
  begins next := tells_either (h₁.begins next) (h₂.begins next)

theorem tells_ahead_facing (p : Parser source α) (next : Next) :
    Tells (facing next) (ahead p) fun _ c _ => facing next c := by
  apply tells_of_forall
  intro c hc hfacing a c' h
  unfold ahead at h
  split at h
  · cases h
    exact ⟨[], Told.refl hc, hfacing⟩
  · cases h
    exact ⟨[], Told.refl hc, hfacing⟩

instance (p : Parser source α) : TellsNothing (ahead p) where
  tells := tells_ahead p
  facing := tells_ahead_facing p

instance {step : σ → Parser source (Option σ)} {init : σ} [h : ∀ s, TellsFlush (step s)] :
    TellsFlush (loop step init) := by
  have hgo (fuel : Nat) (s : σ) : TellsFlush (loop.go step fuel s) := by
    induction fuel generalizing s with
    | zero => exact inferInstanceAs (TellsFlush (pure s : Parser source σ))
    | succ fuel ih =>
        refine (h s).bind fun found => ?_
        cases found with
        | none => exact inferInstanceAs (TellsFlush (pure s : Parser source σ))
        | some s' => exact ih s'
  exact {
    tells := tells_of_forall fun c hc hbefore a c' hrun =>
      (hgo _ init).tells c hc hbefore _ ((mem_outcomes_iff _ _ _).mpr hrun)
    begins := fun next => tells_of_forall fun c hc hbefore a c' hrun =>
      (hgo _ init).begins next c hc hbefore _ ((mem_outcomes_iff _ _ _).mpr hrun) }

instance {step : Parser source Bool} [TellsFlush step] : TellsFlush (loopWhile step) :=
  inferInstanceAs (TellsFlush (loop _ _))

instance {p : Parser source α} [hp : TellsFlush p] : TellsFlush (liftM p : Branching source α) where
  tells := tells_step hp.tells
  begins next := tells_step (hp.begins next)

end

section

variable {m : Type → Type} [Monad m] [Reading source m] [Outcomes source m]

theorem TellsSome.bind {x : m α} {f : α → m β} (hx : TellsFlush x) (hf : ∀ a, TellsSome (f a)) :
    TellsSome (x >>= f) := by
  refine ⟨tells_bind hx.tells fun a ts c hc _ way hway => ?_⟩
  obtain ⟨us, htold, hus⟩ := (hf a).tells c hc trivial way hway
  exact ⟨us, htold, by simp [hus]⟩

instance {x : m α} {f : α → m β} [hx : TellsFlush x] [hf : ∀ a, TellsSome (f a)] :
    TellsSome (x >>= f) :=
  .bind hx hf

theorem TellsSome.append {x : m α} {f : α → m β} (hx : TellsSome x) (hf : ∀ a, TellsFlush (f a)) :
    TellsSome (x >>= f) := by
  refine ⟨tells_bind hx.tells fun a ts c hc hts way hway => ?_⟩
  obtain ⟨us, htold, -⟩ := (hf a).tells c hc trivial way hway
  exact ⟨us, htold, by simp [hts]⟩

instance {x : m α} {f : α → m β} [hx : TellsSome x] [hf : ∀ a, TellsFlush (f a)] :
    TellsSome (x >>= f) :=
  .append hx hf

instance {x : m α} {y : m β} [hx : TellsFlush x] [hy : TellsSome y] :
    TellsSome (x >>= fun _ => y) :=
  .bind hx fun _ => hy

instance {x : m α} {y : m β} [hx : TellsSome x] [hy : TellsFlush y] :
    TellsSome (x >>= fun _ => y) :=
  .append hx fun _ => hy

instance {p : Prop} [Decidable p] {x y : m α} [hx : TellsSome x] [hy : TellsSome y] :
    TellsSome (if p then x else y) :=
  ⟨tells_ite (fun _ => hx.tells) fun _ => hy.tells⟩

instance : TellsSome (fail : m α) :=
  ⟨tells_fail⟩

instance {p : Parser source α} [hp : TellsSome p] : TellsSome (Reading.step p : m α) :=
  ⟨tells_step hp.tells⟩

instance (l : Leaf) : TellsSome (take l : m Unit) :=
  ⟨(tells_take l).mono (fun _ h => h) fun _ _ _ ⟨_, _, _, hts⟩ => by simp [hts]⟩

instance (e : Expect) (text : List Char) : TellsSome (sign e text : m Unit) := by
  unfold sign
  infer_instance

instance (e : Expect) : TellsSome (name e : m Unit) := by
  unfold name
  infer_instance

instance {kind : Kind} (e : Expect) {body : m α} [hbody : TellsPhrases body] :
    TellsSome (node kind e body) :=
  ⟨(tells_node hbody.tells).mono (fun _ h => h) fun _ _ _ ⟨_, _, _, _, hts⟩ => by simp [hts]⟩

section

variable {since : Nat}

theorem TellsBehind.after {x : m α} {f : α → m β} [hx : TellsNothing x]
    (hf : ∀ a, TellsBehind since (f a)) : TellsBehind since (x >>= f) where
  tells next c hc h way hway := by
    obtain ⟨first, hfirst, hway⟩ := (Outcomes.mem_bind x f c way).mp hway
    obtain ⟨_, htold, rfl, hfacing⟩ := hx.tells_facing (bare next) c hc h.1 first hfirst
    have hlog : first.2.log = c.log := htold.log
    obtain ⟨us, htold', hus⟩ :=
      (hf first.1).tells next first.2 htold.valid ⟨hfacing, hlog ▸ h.2⟩ way hway
    exact ⟨us, htold.trans htold', hus⟩

instance {x : m α} {f : α → m β} [TellsNothing x] [hf : ∀ a, TellsBehind since (f a)] :
    TellsBehind since (x >>= f) :=
  .after hf

/-- What begins behind a mark with a lexeme may be made a construct later. -/
theorem TellsBehind.bind {x : m α} {f : α → m β} [hx : TellsFlush x] [hsome : TellsSome x]
    (hf : ∀ a, TellsSince since Solid Solid (f a)) : TellsBehind since (x >>= f) where
  tells next c hc h way hway := by
    obtain ⟨first, hfirst, hway⟩ := (Outcomes.mem_bind x f c way).mp hway
    obtain ⟨ts, htold, ⟨hneat, hends⟩, hne⟩ := (hx.tells.and hsome.tells) c hc trivial first hfirst
    obtain ⟨_, htold', hedge⟩ := hx.begins next c hc h.1 first hfirst
    obtain rfl := htold.unique htold'
    have hbegins : Begins ts := hedge.elim (fun h => absurd h.1 hne) fun h => h.2
    obtain ⟨hvalid, us, hlog, hus⟩ := (hf first.1).keeps c.log h.2 first.2 htold.valid ts htold.log
      ⟨hne, ⟨hbegins, hends⟩, hneat⟩ way hway
    exact ⟨us, ⟨hvalid, hlog⟩, hus⟩

instance {x : m α} {f : α → m β} [TellsFlush x] [TellsSome x]
    [hf : ∀ a, TellsSince since Solid Solid (f a)] : TellsBehind since (x >>= f) :=
  .bind hf

instance {x : m α} {y : m β} [TellsFlush x] [TellsSome x] [hy : TellsSince since Solid Solid y] :
    TellsBehind since (x >>= fun _ => y) :=
  .bind fun _ => hy

instance {p : Prop} [Decidable p] {x y : m α} [hx : TellsBehind since x]
    [hy : TellsBehind since y] :
    TellsBehind since (if p then x else y) :=
  ⟨fun next => tells_ite (fun _ => hx.tells next) fun _ => hy.tells next⟩

theorem Solid.append {ts us : List Tree} (h : Solid ts) (hneat : All IsNeat us) (hends : Ends us) :
    Solid (ts ++ us) where
  ne_nil := by simp [h.ne_nil]
  flush := ⟨h.flush.begins.append h.ne_nil us, h.flush.ends.append hends⟩
  neat := forall_mem_append h.neat hneat

instance (priority := low) {x : m α} [hx : TellsFlush x] : TellsSince since Solid Solid x :=
  .of_tells since (hx.tells.mono (fun _ h => h) fun _ _ _ hus _ hts => hts.append hus.1 hus.2)

instance {kind : Kind} [hkind : FlushKind kind] :
    TellsSince since Solid Solid (wrap kind since : m Unit) :=
  tellsSince_wrap since fun _ h => solid_singleton (.node hkind h.flush h.neat) (by simp)

end

section

variable {before : Cursor source → Prop} {P : List Tree → Prop} {e : Expect}

theorem tells_mark_after
    (h : Tells before (passGaps e : Parser source Unit) fun _ c ts =>
      P ts ∧ ∃ next, facing (bare next) c) :
    Tells before (mark e : m Nat) fun since c ts =>
      P ts ∧ ∃ next, facing (bare next) c ∧ c.log.length = since := by
  apply tells_step
  apply tells_bind h
  rintro - gaps
  apply tells_of_forall
  rintro c hc ⟨hgaps, next, hfacing⟩ since c' h
  cases h
  exact ⟨[], Told.refl hc, by simpa using hgaps, next, hfacing, hc.size.symm⟩

theorem tells_behind {f : Nat → m α} (hf : ∀ since, TellsBehind since (f since))
    (h : Tells before (passGaps e : Parser source Unit) fun _ c ts =>
      P ts ∧ ∃ next, facing (bare next) c) :
    Tells before (mark e >>= f) fun _ _ ts => ∃ gaps us, P gaps ∧ Solid us ∧ ts = gaps ++ us := by
  refine tells_bind (tells_mark_after h) fun since gaps => ?_
  rintro c hc ⟨hgaps, next, hbehind⟩ way hway
  obtain ⟨us, htold, hus⟩ := (hf since).tells next c hc hbehind way hway
  exact ⟨us, htold, gaps, us, hgaps, hus, rfl⟩

end

theorem TellsFlush.mark_bind {e : Expect} {f : Nat → m α}
    (hf : ∀ since, TellsBehind since (f since)) : TellsFlush (mark e >>= f) where
  tells := by
    refine (tells_behind hf (tells_passGaps e)).mono (fun _ h => h) ?_
    rintro _ _ _ ⟨gaps, us, hgaps, hus, rfl⟩
    exact ⟨forall_mem_append (forall_of_areGaps hgaps) hus.neat,
      hus.flush.ends.prepend hus.ne_nil gaps⟩
  begins next := by
    have hgaps : Tells (facing (bare next)) (passGaps e : Parser source Unit) fun _ c ts =>
        ts = [] ∧ ∃ next, facing (bare next) c :=
      (tells_passGaps_bare e next).mono (fun _ h => h) fun _ _ _ h => ⟨h.1, next, h.2⟩
    refine (tells_behind hf hgaps).mono (fun _ h => h) ?_
    rintro _ _ _ ⟨_, us, rfl, hus, rfl⟩
    exact .inr ⟨hus.ne_nil, hus.flush.begins⟩

theorem TellsSome.mark_bind {e : Expect} {f : Nat → m α}
    (hf : ∀ since, TellsBehind since (f since)) : TellsSome (mark e >>= f) := by
  refine ⟨(tells_behind hf (tells_passGaps e)).mono (fun _ h => h) ?_⟩
  rintro _ _ _ ⟨gaps, us, -, hus, rfl⟩
  simp [hus.ne_nil]

instance (e : Expect) {f : Nat → m α} [hf : ∀ since, TellsBehind since (f since)] :
    TellsFlush (mark e >>= f) :=
  .mark_bind hf

instance (e : Expect) {f : Nat → m α} [hf : ∀ since, TellsBehind since (f since)] :
    TellsSome (mark e >>= f) :=
  .mark_bind hf

end

end Cythonizer.Proofs.Source.Edges
