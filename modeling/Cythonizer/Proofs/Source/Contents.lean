import Cythonizer.Proofs.Source.Telling

namespace Cythonizer.Proofs.Source.Contents

open Cythonizer.Source.Branches
open Cythonizer.Source.Reader
open Cythonizer.Source.Gaps
open Cythonizer.Source.Keywords
open Cythonizer.Source.Lexemes
open Cythonizer.Source.Trees
open Cythonizer.Proofs.Source.Events
open Cythonizer.Proofs.Source.Gaps
open Cythonizer.Proofs.Source.Telling

variable {source : List Char} {α β σ : Type} {K L : Tree → Prop}

/-- A form of trees that gaps have. -/
class HasGaps (K : Tree → Prop) : Prop where
  gap {g : Gap} {text : List Char} : Spells g text → K (.gap g text)

/-- A leaf with characters. A name is an identifier. -/
structure IsLexeme (l : Leaf) (text : List Char) : Prop where
  layout : l ≠ .layout
  name : l = .name → IsIdentifier text

theorem isLexeme_word (text : List Char) : IsLexeme .word text :=
  ⟨by decide, nofun⟩

theorem isLexeme_sign (text : List Char) : IsLexeme .sign text :=
  ⟨by decide, nofun⟩

theorem isLexeme_literal (text : List Char) : IsLexeme .literal text :=
  ⟨by decide, nofun⟩

theorem isLexeme_name {text : List Char} (h : IsIdentifier text) : IsLexeme .name text :=
  ⟨by decide, fun _ => h⟩

/-- A form of trees that leaves with characters have. -/
class HasLeaves (K : Tree → Prop) : Prop extends HasGaps K where
  leaf {l : Leaf} {text : List Char} : IsLexeme l text → K (.leaf l text)

/-- A construct of the kind has the form `K` if its children have the form `inner`. -/
class Builds (kind : Kind) (inner : outParam (Tree → Prop)) (K : Tree → Prop) : Prop where
  node {children : List Tree} : (∀ t ∈ children, inner t) → K (.node kind children)

theorem forall_mem_append {ts us : List Tree} (hts : ∀ t ∈ ts, K t) (hus : ∀ t ∈ us, K t) :
    ∀ t ∈ ts ++ us, K t := by
  intro t ht
  rcases List.mem_append.mp ht with ht | ht
  · exact hts t ht
  · exact hus t ht

theorem forall_of_areGaps [HasGaps K] {ts : List Tree} (h : AreGaps ts) : ∀ t ∈ ts, K t := by
  intro t ht
  obtain ⟨g, text, rfl, hspells⟩ := h t ht
  exact HasGaps.gap hspells

theorem forall_of_lexed [HasGaps K] {l : Leaf} {text : List Char} {ts : List Tree}
    (hl : K (.leaf l text)) (h : Lexed l text ts) : ∀ t ∈ ts, K t := by
  obtain ⟨gaps, hgaps, rfl⟩ := h
  exact forall_mem_append (forall_of_areGaps hgaps) fun t ht => List.mem_singleton.mp ht ▸ hl

/-- A reader of trees of one form. -/
class TellsOnly {m : Type → Type} [Monad m] [Reading source m] [Outcomes source m]
    (K : Tree → Prop) (x : m α) : Prop where
  tells : Tells anywhere x fun _ _ ts => ∀ t ∈ ts, K t

section

variable {m : Type → Type} [Monad m] [Reading source m] [Outcomes source m]

theorem TellsOnly.from {x : m α} (h : TellsOnly K x) (before : Cursor source → Prop) :
    Tells before x fun _ _ ts => ∀ t ∈ ts, K t :=
  h.tells.mono (fun _ _ => trivial) fun _ _ _ h => h

theorem TellsOnly.mono {x : m α} (h : TellsOnly K x) (hKL : ∀ t, K t → L t) : TellsOnly L x :=
  ⟨h.tells.mono (fun _ h => h) fun _ _ _ h t ht => hKL t (h t ht)⟩

theorem TellsOnly.of_silent {x : m α} (h : Tells anywhere x fun _ _ ts => ts = []) :
    TellsOnly K x :=
  ⟨h.mono (fun _ h => h) fun _ _ _ h => by simp [h]⟩

theorem tells_only_bind {before : Cursor source → Prop} {x : m α} {f : α → m β}
    (between : α → Cursor source → Prop)
    (hx : Tells before x fun a c ts => between a c ∧ ∀ t ∈ ts, K t)
    (hf : ∀ a, Tells (between a) (f a) fun _ _ ts => ∀ t ∈ ts, K t) :
    Tells before (x >>= f) fun _ _ ts => ∀ t ∈ ts, K t := by
  apply tells_bind hx
  intro a ts c hc h way hway
  obtain ⟨us, htold, hus⟩ := hf a c hc h.1 way hway
  exact ⟨us, htold, forall_mem_append h.2 hus⟩

theorem tells_only_pure {before : Cursor source → Prop} (a : α) :
    Tells before (pure a : m α) fun _ _ ts => ∀ t ∈ ts, K t :=
  tells_pure fun _ _ => by simp

theorem tells_only_take [HasGaps K] {l : Leaf} {next : Next} (h : K (.leaf l next.text)) :
    Tells (facing next) (take l : m Unit) fun _ _ ts => ∀ t ∈ ts, K t :=
  (tells_take_facing l next).mono (fun _ h => h) fun _ _ _ hts => forall_of_lexed h hts

theorem tells_only_take_layout [HasGaps K] {next : Next} (h : isLayout next.lexeme.category = true)
    (hmark : K (.leaf .layout [])) :
    Tells (facing next) (take .layout : m Unit) fun _ _ ts => ∀ t ∈ ts, K t :=
  (tells_take_layout h).mono (fun _ h => h) fun _ _ _ hts => forall_of_lexed hmark hts

instance (a : α) : TellsOnly K (pure a : m α) :=
  ⟨tells_pure fun _ _ => by simp⟩

theorem TellsOnly.bind {x : m α} {f : α → m β} [hx : TellsOnly K x]
    (hf : ∀ a, TellsOnly K (f a)) : TellsOnly K (x >>= f) :=
  ⟨tells_only_bind (fun _ => anywhere)
    (hx.tells.mono (fun _ h => h) fun _ _ _ h => ⟨trivial, h⟩) fun a => (hf a).tells⟩

instance {x : m α} {f : α → m β} [TellsOnly K x] [∀ a, TellsOnly K (f a)] :
    TellsOnly K (x >>= f) :=
  .bind fun _ => inferInstance

-- An instance for what does not depend on the result before it is counted once only.
instance {x : m α} {y : m β} [TellsOnly K x] [hy : TellsOnly K y] :
    TellsOnly K (x >>= fun _ => y) :=
  .bind fun _ => hy

instance {p : Prop} [Decidable p] {x y : m α} [hx : TellsOnly K x] [hy : TellsOnly K y] :
    TellsOnly K (if p then x else y) :=
  ⟨tells_ite (fun _ => hx.tells) fun _ => hy.tells⟩

instance (e : Expect) : TellsOnly K (peek e : m Next) :=
  .of_silent ((tells_peek e).mono (fun _ h => h) fun _ _ _ h => h.1)

instance {p : Parser source α} [hp : TellsOnly K p] : TellsOnly K (Reading.step p : m α) :=
  ⟨tells_step hp.tells⟩

instance : TellsOnly K (fail : m α) :=
  ⟨tells_fail⟩

instance [HasGaps K] (e : Expect) : TellsOnly K (passGaps e : m Unit) :=
  ⟨(tells_passGaps e).mono (fun _ h => h) fun _ _ _ h => forall_of_areGaps h.1⟩

theorem tellsOnly_take [HasLeaves K] {l : Leaf} (hl : ∀ text, IsLexeme l text) :
    TellsOnly K (take l : m Unit) :=
  ⟨(tells_take l).mono (fun _ h => h) fun _ _ _ ⟨text, h⟩ =>
    forall_of_lexed (HasLeaves.leaf (hl text)) h⟩

instance [HasLeaves K] : TellsOnly K (take .word : m Unit) :=
  tellsOnly_take isLexeme_word

instance [HasLeaves K] : TellsOnly K (take .sign : m Unit) :=
  tellsOnly_take isLexeme_sign

instance [HasLeaves K] : TellsOnly K (take .literal : m Unit) :=
  tellsOnly_take isLexeme_literal

instance [HasLeaves K] (e : Expect) (text : List Char) : TellsOnly K (sign e text : m Unit) :=
  ⟨(tells_sign e text).mono (fun _ h => h) fun _ _ _ h =>
    forall_of_lexed (HasLeaves.leaf (isLexeme_sign text)) h⟩

instance [HasLeaves K] (e : Expect) (k : Keyword) : TellsOnly K (keyword e k : m Unit) :=
  ⟨(tells_keyword e k).mono (fun _ h => h) fun _ _ _ ⟨text, _, h⟩ =>
    forall_of_lexed (HasLeaves.leaf (isLexeme_word text)) h⟩

instance [HasLeaves K] (e : Expect) : TellsOnly K (name e : m Unit) :=
  ⟨(tells_name e).mono (fun _ h => h) fun _ _ _ ⟨_, hname, h⟩ =>
    forall_of_lexed (HasLeaves.leaf (isLexeme_name hname)) h⟩

instance (e : Expect) (signs : List (List Char)) : TellsOnly K (atSign e signs : m Bool) :=
  .of_silent (tells_atSign e signs)

instance (e : Expect) (k : Keyword) : TellsOnly K (atWord e k : m Bool) :=
  .of_silent (tells_atWord e k)

instance : TellsOnly K (left : m Nat) :=
  .of_silent tells_left

theorem forall_of_node [HasGaps K] {kind : Kind} {ts : List Tree} {P : List Tree → Prop}
    (hnode : ∀ children, P children → K (.node kind children))
    (h : ∃ gaps children, AreGaps gaps ∧ P children ∧ ts = gaps ++ [.node kind children]) :
    ∀ t ∈ ts, K t := by
  obtain ⟨gaps, children, hgaps, hchildren, rfl⟩ := h
  refine forall_mem_append (forall_of_areGaps hgaps) fun t ht => ?_
  obtain rfl := List.mem_singleton.mp ht
  exact hnode children hchildren

instance {kind : Kind} [HasGaps K] [h : Builds kind L K] (e : Expect) {body : m α}
    [hbody : TellsOnly L body] : TellsOnly K (node kind e body) :=
  ⟨(tells_node hbody.tells).mono (fun _ h => h) fun _ _ _ => forall_of_node fun _ => h.node⟩

end

instance {first second : Parser source α} [h₁ : TellsOnly K first] [h₂ : TellsOnly K second] :
    TellsOnly K (either first second) :=
  ⟨tells_either h₁.tells h₂.tells⟩

instance (p : Parser source α) : TellsOnly K (ahead p) :=
  .of_silent (tells_ahead p)

instance {step : σ → Parser source (Option σ)} {init : σ} [h : ∀ s, TellsOnly K (step s)] :
    TellsOnly K (loop step init) :=
  ⟨tells_loop fun s => (h s).tells⟩

theorem TellsOnly.loopWhile {step : Parser source Bool} (h : TellsOnly K step) :
    TellsOnly K (loopWhile step) :=
  inferInstanceAs (TellsOnly K (loop _ _))

instance {step : Parser source Bool} [h : TellsOnly K step] : TellsOnly K (loopWhile step) :=
  h.loopWhile

instance {p : Parser source α} [hp : TellsOnly K p] :
    TellsOnly K (liftM p : Branching source α) :=
  ⟨tells_step hp.tells⟩

instance {first second : Branching source α} [h₁ : TellsOnly K first] [h₂ : TellsOnly K second] :
    TellsOnly K (both first second) :=
  ⟨tells_both h₁.tells h₂.tells⟩

instance {step : Branching source Bool} [h : TellsOnly K step] : TellsOnly K (repeated step) :=
  ⟨tells_repeated h.tells⟩

section

variable {m : Type → Type} [Monad m] [Reading source m] [Outcomes source m]

/-- Trees of one form. -/
def All (K : Tree → Prop) (ts : List Tree) : Prop :=
  ∀ t ∈ ts, K t

/-- A reader after a mark. If `P` holds of the trees told since the mark, `Q` holds of those told
since then after it. -/
class TellsSince (since : Nat) (P Q : List Tree → Prop) (x : m α) : Prop where
  keeps : ∀ base : List Event, base.length = since → ∀ c, Valid c → ∀ ts,
    c.log = (eventsOfAll ts).reverse ++ base → P ts → ∀ way ∈ outcomes x c,
      Valid way.2 ∧ ∃ us, way.2.log = (eventsOfAll us).reverse ++ base ∧ Q us

variable {P Q : List Tree → Prop}

theorem TellsSince.of_tells (since : Nat) {x : m α}
    (h : Tells anywhere x fun _ _ us => ∀ ts, P ts → Q (ts ++ us)) : TellsSince since P Q x where
  keeps base hbase c hc ts hlog hts way hway := by
    obtain ⟨us, htold, hus⟩ := h c hc trivial way hway
    refine ⟨htold.valid, ts ++ us, ?_, hus ts hts⟩
    rw [htold.log, hlog, eventsOfAll_append, List.reverse_append, List.append_assoc]

instance (priority := low) (since : Nat) {x : m α} [hx : TellsOnly K x] :
    TellsSince since (All K) (All K) x :=
  .of_tells since (hx.tells.mono (fun _ h => h) fun _ _ _ hus _ hts => forall_mem_append hts hus)

theorem TellsSince.bind {P' : List Tree → Prop} {since : Nat} {x : m α} {f : α → m β}
    (hx : TellsSince since P P' x) (hf : ∀ a, TellsSince since P' Q (f a)) :
    TellsSince since P Q (x >>= f) where
  keeps base hbase c hc ts hlog hts way hway := by
    obtain ⟨first, hfirst, hway⟩ := (Outcomes.mem_bind x f c way).mp hway
    obtain ⟨hvalid, us, hlog', hus⟩ := hx.keeps base hbase c hc ts hlog hts first hfirst
    exact (hf first.1).keeps base hbase first.2 hvalid us hlog' hus way hway

theorem TellsSince.after {since : Nat} {x : m α} {f : α → m β} [hx : TellsSince since P P x]
    (hf : ∀ a, TellsSince since P Q (f a)) : TellsSince since P Q (x >>= f) :=
  hx.bind hf

instance (since : Nat) {x : m α} {f : α → m β} [TellsSince since P P x]
    [hf : ∀ a, TellsSince since P Q (f a)] : TellsSince since P Q (x >>= f) :=
  .after hf

instance (since : Nat) {x : m α} {y : m β} [TellsSince since P P x]
    [hy : TellsSince since P Q y] : TellsSince since P Q (x >>= fun _ => y) :=
  .after fun _ => hy

instance (since : Nat) {p : Prop} [Decidable p] {x y : m α} [hx : TellsSince since P Q x]
    [hy : TellsSince since P Q y] : TellsSince since P Q (if p then x else y) := by
  split
  · exact hx
  · exact hy

theorem tellsSince_wrap {kind : Kind} (since : Nat)
    (h : ∀ children, P children → Q [.node kind children]) :
    TellsSince since P Q (wrap kind since : m Unit) where
  keeps base hbase c hc ts hlog hts way hway := by
    obtain rfl : ((), c.wrapped kind since) = way :=
      Except.ok.inj ((Outcomes.mem_step _ _ _).mp hway)
    have hsince : c.size - since = (eventsOfAll ts).reverse.length := by
      rw [hc.size, hlog, List.length_append, hbase, Nat.add_sub_cancel]
    -- What was told since the mark is cut off the log and put back inside of the construct.
    refine ⟨⟨by simp [Cursor.wrapped, hc.size]; omega, hc.ahead⟩, [.node kind ts], ?_, h ts hts⟩
    simp only [Cursor.wrapped, hsince, hlog, List.take_left, List.drop_left]
    simp [eventsOfAll, eventsOf]

theorem tells_mark_bind {e : Expect} {before : Cursor source → Prop} {f : Nat → m α}
    (hP : P []) (hf : ∀ since, TellsSince since P Q (f since)) :
    Tells before (mark e >>= f) fun _ _ ts =>
      ∃ gaps us, AreGaps gaps ∧ Q us ∧ ts = gaps ++ us := by
  apply tells_bind (tells_mark e)
  rintro since gaps c hc ⟨hgaps, rfl⟩ way hway
  obtain ⟨hvalid, us, hlog, hus⟩ := (hf c.log.length).keeps c.log rfl c hc [] rfl hP way hway
  exact ⟨us, ⟨hvalid, hlog⟩, gaps, us, hgaps, hus, rfl⟩

theorem tellsOnly_mark_bind [HasGaps L] {e : Expect} {f : Nat → m α} (hP : P [])
    (hf : ∀ since, TellsSince since P (All L) (f since)) : TellsOnly L (mark e >>= f) := by
  refine ⟨(tells_mark_bind hP hf).mono (fun _ h => h) ?_⟩
  rintro _ _ _ ⟨gaps, us, hgaps, hus, rfl⟩
  exact forall_mem_append (forall_of_areGaps hgaps) hus

end

instance {P : List Tree → Prop} (since : Nat) {step : σ → Parser source (Option σ)} {init : σ}
    [h : ∀ s, TellsSince since P P (step s)] : TellsSince since P P (loop step init) where
  keeps base hbase c hc ts hlog hts way hway := by
    have hpure (s : σ) : TellsSince since P P (pure s : Parser source σ) :=
      .of_tells since (tells_pure fun _ _ ts hts => by simpa using hts)
    have hgo (fuel : Nat) (s : σ) : TellsSince since P P (loop.go step fuel s) := by
      induction fuel generalizing s with
      | zero => exact hpure s
      | succ fuel ih =>
          refine (h s).bind fun found => ?_
          cases found with
          | none => exact hpure s
          | some s' => exact ih s'
    exact (hgo _ init).keeps base hbase c hc ts hlog hts way hway

end Cythonizer.Proofs.Source.Contents
