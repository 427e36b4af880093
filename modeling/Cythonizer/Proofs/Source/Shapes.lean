import Cythonizer.Proofs.Source.Parameters

namespace Cythonizer.Proofs.Source.Shapes

open Cythonizer.Source.Branches
open Cythonizer.Source.Reader
open Cythonizer.Source.Gaps
open Cythonizer.Source.Rules.Compound
open Cythonizer.Source.Rules.Parameter
open Cythonizer.Source.Rules.Phrases
open Cythonizer.Source.Keywords
open Cythonizer.Source.Lexemes
open Cythonizer.Source.Trees
open Cythonizer.Proofs.Source.Contents
open Cythonizer.Proofs.Source.Gaps
open Cythonizer.Proofs.Source.Parameters
open Cythonizer.Proofs.Source.Phrases
open Cythonizer.Proofs.Source.Phrasing
open Cythonizer.Proofs.Source.Telling

variable {source : List Char} {α β : Type} {P : List Tree → Prop} {K : Tree → Prop}

/-- A reader that tells trees of which something holds together. -/
class TellsThat {m : Type → Type} [Monad m] [Reading source m] [Outcomes source m]
    (P : List Tree → Prop) (x : m α) : Prop where
  tells : Tells anywhere x fun _ _ ts => P ts

/-- Trees that may stand before others of which something holds. -/
class Precedes (K : outParam (Tree → Prop)) (P : List Tree → Prop) : Prop where
  prepend {ts us : List Tree} : All K ts → P us → P (ts ++ us)

/-- Trees that may stand after others of which something holds. -/
class Follows (K : outParam (Tree → Prop)) (P : List Tree → Prop) : Prop where
  append {ts us : List Tree} : P ts → All K us → P (ts ++ us)

section

variable {m : Type → Type} [Monad m] [Reading source m] [Outcomes source m]

theorem TellsThat.bind {Q R : List Tree → Prop} {x : m α} {f : α → m β} (hx : TellsThat Q x)
    (hf : ∀ a, TellsThat R (f a)) (h : ∀ ts us, Q ts → R us → P (ts ++ us)) :
    TellsThat P (x >>= f) := by
  refine ⟨tells_bind hx.tells fun a ts => ?_⟩
  intro c hc hts way hway
  obtain ⟨us, htold, hus⟩ := (hf a).tells c hc trivial way hway
  exact ⟨us, htold, h ts us hts hus⟩

theorem TellsThat.from {x : m α} (h : TellsThat P x) (before : Cursor source → Prop) :
    Tells before x fun _ _ ts => P ts :=
  h.tells.mono (fun _ _ => trivial) fun _ _ _ h => h

theorem TellsThat.of_only {x : m α} (h : TellsOnly K x) : TellsThat (All K) x :=
  ⟨h.tells⟩

theorem TellsThat.after {x : m α} {f : α → m β} [hP : Precedes K P] [hx : TellsOnly K x]
    (hf : ∀ a, TellsThat P (f a)) : TellsThat P (x >>= f) :=
  .bind (.of_only hx) hf fun _ _ => hP.prepend

instance {x : m α} {f : α → m β} [Precedes K P] [TellsOnly K x] [hf : ∀ a, TellsThat P (f a)] :
    TellsThat P (x >>= f) :=
  .after hf

theorem TellsThat.append {x : m α} {f : α → m β} [hP : Follows K P] [hx : TellsThat P x]
    (hf : ∀ a, TellsOnly K (f a)) : TellsThat P (x >>= f) :=
  .bind hx (fun a => .of_only (hf a)) fun _ _ => hP.append

instance {x : m α} {f : α → m β} [Follows K P] [TellsThat P x] [hf : ∀ a, TellsOnly K (f a)] :
    TellsThat P (x >>= f) :=
  .append hf

instance {x : m α} {y : m β} [Precedes K P] [TellsOnly K x] [hy : TellsThat P y] :
    TellsThat P (x >>= fun _ => y) :=
  .after fun _ => hy

instance {x : m α} {y : m β} [Follows K P] [TellsThat P x] [hy : TellsOnly K y] :
    TellsThat P (x >>= fun _ => y) :=
  .append fun _ => hy

instance {p : Prop} [Decidable p] {x y : m α} [hx : TellsThat P x] [hy : TellsThat P y] :
    TellsThat P (if p then x else y) :=
  ⟨tells_ite (fun _ => hx.tells) fun _ => hy.tells⟩

instance : TellsThat P (fail : m α) :=
  ⟨tells_fail⟩

end

/-- Trees of which the first one is a construct. -/
def IsLed (ts : List Tree) : Prop :=
  ∃ kind children rest, ts = .node kind children :: rest

theorem IsLed.append {ts : List Tree} (h : IsLed ts) (us : List Tree) : IsLed (ts ++ us) := by
  obtain ⟨kind, children, rest, rfl⟩ := h
  exact ⟨kind, children, rest ++ us, rfl⟩

/-- The trees of a block: a statement comes first, or there is nothing but a mark of layout. -/
def IsComplete (block : List Tree) : Prop :=
  IsLed block ∨ block = [.leaf .layout []]

/-- A colon and a block, with phrases before them. -/
inductive IsSuite : List Tree → Prop
  | intro {before between block : List Tree} (hbefore : All IsNeat before)
      (hbetween : ∀ children, .node .block children ∉ between) (h : IsComplete block) :
      IsSuite (before ++ .leaf .sign [':'] :: (between ++ [.node .block block]))

/-- Phrases, a colon, and what follows it. -/
inductive IsHeaded : List Tree → Prop
  | intro {before rest : List Tree} (hbefore : All IsNeat before) :
      IsHeaded (before ++ .leaf .sign [':'] :: rest)

theorem IsSuite.isHeaded {ts : List Tree} (h : IsSuite ts) : IsHeaded ts := by
  obtain ⟨hbefore, -, -⟩ := h
  exact .intro hbefore

theorem IsHeaded.prepend {us : List Tree} (h : IsHeaded us) {ts : List Tree} (hts : All IsNeat ts) :
    IsHeaded (ts ++ us) := by
  obtain ⟨hbefore⟩ := h
  rw [← List.append_assoc]
  exact .intro (forall_mem_append hts hbefore)

theorem IsHeaded.append {ts : List Tree} (h : IsHeaded ts) (us : List Tree) :
    IsHeaded (ts ++ us) := by
  obtain ⟨hbefore⟩ := h
  rw [List.append_assoc]
  exact .intro hbefore

instance : Precedes IsNeat IsSuite where
  prepend := by
    rintro ts _ hts ⟨hbefore, hbetween, h⟩
    rw [← List.append_assoc]
    exact .intro (forall_mem_append hts hbefore) hbetween h

/-- A tree of a header before the parameters. -/
inductive IsBare : Tree → Prop
  | gap {g : Gap} {text : List Char} (h : Spells g text) : IsBare (.gap g text)
  | word {text : List Char} : IsBare (.leaf .word text)
  | typeParameters {children : List Tree} (h : All IsNeat children) :
      IsBare (.node .typeParameters children)

instance : HasGaps IsBare where
  gap := .gap

instance : Builds .typeParameters IsNeat IsBare where
  node := .typeParameters

/-- The children of the definition of a function. -/
inductive IsDefinition : List Tree → Prop
  | intro {first second suite parameters : List Tree} {name : List Char} (hfirst : All IsBare first)
      (hsecond : All IsBare second) (hparameters : IsParameterList parameters) (h : IsSuite suite) :
      IsDefinition
        (first ++ .leaf .name name :: (second ++ .node .parameters parameters :: suite))

instance : Precedes IsBare IsDefinition where
  prepend := by
    rintro ts _ hts ⟨hfirst, hsecond, hparameters, h⟩
    rw [← List.append_assoc]
    exact .intro (forall_mem_append hts hfirst) hsecond hparameters h

/-- What follows the name of a function. -/
inductive IsSignature : List Tree → Prop
  | intro {before suite parameters : List Tree} (hbefore : All IsBare before)
      (hparameters : IsParameterList parameters) (h : IsSuite suite) :
      IsSignature (before ++ .node .parameters parameters :: suite)

instance : Precedes IsBare IsSignature where
  prepend := by
    rintro ts _ hts ⟨hbefore, hparameters, h⟩
    rw [← List.append_assoc]
    exact .intro (forall_mem_append hts hbefore) hparameters h

instance {m : Type → Type} [Monad m] [Reading source m] [Outcomes source m]
    (e : Expect) (k : Keyword) :
    TellsOnly IsBare (keyword e k : m Unit) :=
  ⟨(tells_keyword e k).mono (fun _ h => h) fun _ _ _ ⟨_, _, h⟩ => forall_of_lexed .word h⟩

section

variable {g : Grammar source} [FlushGrammar g]

instance : TellsOnly IsBare (typeParameters g) := by
  unfold typeParameters
  infer_instance

instance {m : Type → Type} [Monad m] [Reading source m] [Outcomes source m] (e : Expect)
    {rest : Unit → m α} [hrest : ∀ a, TellsThat IsSignature (rest a)] :
    TellsThat IsDefinition (name e >>= rest) := by
  refine .bind ⟨tells_name e⟩ hrest ?_
  rintro _ _ ⟨name, -, gaps, hgaps, rfl⟩ ⟨hbefore, hparameters, hsuite⟩
  rw [List.append_assoc]
  exact .intro (forall_of_areGaps hgaps) hbefore hparameters hsuite

instance {rest : Unit → Branching source α} [hrest : ∀ a, TellsThat IsSuite (rest a)] :
    TellsThat IsSignature (liftM (parameters g) >>= rest) := by
  refine .bind ⟨tells_step tells_parameters⟩ hrest ?_
  rintro _ _ ⟨gaps, children, hgaps, hparameters, rfl⟩ hsuite
  rw [List.append_assoc]
  exact .intro (forall_of_areGaps hgaps) hparameters hsuite

end

/-- What follows the colon of a suite. -/
def IsBehindColon (ts : List Tree) : Prop :=
  ∃ between block, (∀ children, .node .block children ∉ between) ∧ IsComplete block ∧
    ts = between ++ [.node .block block]

theorem not_mem_block {gaps : List Tree} (h : AreGaps gaps) (children : List Tree) :
    .node .block children ∉ gaps := by
  intro hmem
  obtain ⟨g, text, heq, -⟩ := h _ hmem
  cases heq

section

variable {m : Type → Type} [Monad m] [Reading source m] [Outcomes source m]
  {before : Cursor source → Prop} {e : Expect}

theorem isBehindColon_of_gaps {ts : List Tree}
    (h : ∃ gaps block, AreGaps gaps ∧ IsComplete block ∧ ts = gaps ++ [.node .block block]) :
    IsBehindColon ts := by
  obtain ⟨gaps, block, hgaps, hblock, rfl⟩ := h
  exact ⟨gaps, block, not_mem_block hgaps, hblock, rfl⟩

theorem tells_block {body : m α}
    (h : ∀ next, Tells (facing (bare next)) body fun _ _ ts => IsComplete ts) :
    Tells before (node .block e body) fun _ _ ts => IsBehindColon ts := by
  have hbody : Tells (fun c => ∃ next, facing (bare next) c) body fun _ _ ts => IsComplete ts :=
    fun c hc ⟨next, hfacing⟩ way hway => h next c hc hfacing way hway
  exact (tells_node_after ((tells_passGaps e).mono (fun _ h => h) fun _ _ _ h => h) hbody).mono
    (fun _ h => h) fun _ _ _ h => isBehindColon_of_gaps h

theorem tells_take_mark {next : Next} (h : isLayout next.lexeme.category = true) :
    Tells (facing (bare next)) (take .layout : m Unit) fun _ _ ts => ts = [.leaf .layout []] := by
  intro c hc hfacing way hway
  have hfits := hc.ahead _ hfacing
  have htext : next.text = [] := by
    rw [← show (bare next).text = next.text from rfl, hfits.text, hfits.layout h, List.take_zero]
  obtain ⟨ts, htold, hts⟩ := tells_take_bare .layout next c hc hfacing way hway
  exact ⟨ts, htold, htext ▸ hts⟩

theorem tells_emptyBlock {next : Next} (h : isLayout next.lexeme.category = true) :
    Tells (facing next) (node .block e (take .layout) : m Unit) fun _ _ ts => IsBehindColon ts :=
  (tells_node_facing (tells_take_mark h)).mono (fun _ h => h) fun _ _ _
    ⟨gaps, block, hgaps, hmark, hts⟩ =>
    isBehindColon_of_gaps ⟨gaps, block, hgaps, .inr hmark, hts⟩

theorem tells_layout_block {next : Next} {rest : m α} (h : isLayout next.lexeme.category = true)
    (hrest : TellsThat IsBehindColon rest) :
    Tells (facing next) (take .layout >>= fun _ => rest) fun _ _ ts => IsBehindColon ts := by
  refine tells_bind (tells_take_layout h) fun _ ts => ?_
  rintro c hc ⟨gaps, hgaps, rfl⟩ way hway
  obtain ⟨_, htold, between, block, hbetween, hblock, rfl⟩ := hrest.tells c hc trivial way hway
  refine ⟨_, htold, gaps ++ [.leaf .layout []] ++ between, block, ?_, hblock, by simp⟩
  simpa [not_mem_block hgaps] using hbetween

theorem tells_colon_bind {rest : Unit → m α} (hrest : ∀ a, TellsThat IsBehindColon (rest a)) :
    TellsThat IsSuite (sign e [':'] >>= rest) := by
  refine .bind ⟨tells_sign e [':']⟩ hrest ?_
  rintro _ _ ⟨gaps, hgaps, rfl⟩ ⟨between, block, hbetween, hblock, rfl⟩
  rw [List.append_assoc]
  exact .intro (forall_of_areGaps hgaps) hbetween hblock

end

end Cythonizer.Proofs.Source.Shapes
