import Cythonizer.Proofs.Source.Shapes

namespace Cythonizer.Proofs.Source.Visibility

open Cythonizer.Source.Reader
open Cythonizer.Source.Rules
open Cythonizer.Source.Rules.Literal
open Cythonizer.Source.Rules.Phrases
open Cythonizer.Source.Keywords
open Cythonizer.Source.Lexemes
open Cythonizer.Source.Trees
open Cythonizer.Proofs.Source.Contents
open Cythonizer.Proofs.Source.Lexemes
open Cythonizer.Proofs.Source.Phrases
open Cythonizer.Proofs.Source.Phrasing
open Cythonizer.Proofs.Source.Shapes
open Cythonizer.Proofs.Source.Telling

variable {source : List Char} {α β : Type}

/-- Trees with a character that is no white space. -/
def Shows (ts : List Tree) : Prop :=
  IsVisible (spellAll ts)

theorem Shows.append {ts : List Tree} (h : Shows ts) (us : List Tree) : Shows (ts ++ us) := by
  rw [Shows, spellAll_append]
  exact IsVisible.append_right h _

theorem Shows.prepend {us : List Tree} (h : Shows us) (ts : List Tree) : Shows (ts ++ us) := by
  rw [Shows, spellAll_append]
  exact IsVisible.append_left h _

theorem Shows.cons {ts : List Tree} (h : Shows ts) (t : Tree) : Shows (t :: ts) :=
  h.prepend [t]

theorem shows_leaf {text : List Char} (h : IsVisible text) (l : Leaf) : Shows [.leaf l text] := by
  simpa [Shows, spellAll, spell] using h

theorem shows_node {kind : Kind} {children : List Tree} (h : Shows children) :
    Shows [.node kind children] := by
  simpa [Shows, spellAll, spell] using h

theorem shows_of_lexed {l : Leaf} {text : List Char} {ts : List Tree} (h : IsVisible text)
    (hts : Lexed l text ts) : Shows ts := by
  obtain ⟨gaps, -, rfl⟩ := hts
  exact (shows_leaf h l).prepend gaps

instance : Precedes IsNeat Shows where
  prepend _ h := h.prepend _

instance : Follows IsNeat Shows where
  append h _ := h.append _

section

variable {m : Type → Type} [Monad m] [Reading source m] [Outcomes source m]
  {before : Cursor source → Prop} {next : Next}

theorem tells_take_visible {l : Leaf} (h : isWritten next.lexeme.category = true) :
    Tells (facing next) (take l : m Unit) fun _ _ ts => Shows ts := by
  intro c hc hfacing way hway
  obtain ⟨ts, htold, hts⟩ := tells_take_facing l next c hc hfacing way hway
  exact ⟨ts, htold, shows_of_lexed ((hc.ahead next hfacing).visible h) hts⟩

theorem tells_visible_bind {x : m α} {f : α → m β} (hx : Tells before x fun _ _ ts => Shows ts)
    [hf : ∀ a, TellsPhrases (f a)] : Tells before (x >>= f) fun _ _ ts => Shows ts := by
  refine tells_bind hx fun a ts c hc hts way hway => ?_
  obtain ⟨us, htold, -⟩ := (hf a).tells c hc trivial way hway
  exact ⟨us, htold, hts.append us⟩

theorem isWritten_of_is {category : Category} (h : next.is category = true)
    (hcategory : isWritten category = true) : isWritten next.lexeme.category = true := by
  obtain rfl : next.lexeme.category = category := by simpa [Next.is] using h
  exact hcategory

theorem isWritten_of_isSign {text : List Char} (h : next.isSign text = true) :
    isWritten next.lexeme.category = true := by
  rw [((isSign_iff next text).mp h).1]
  rfl

theorem isWritten_of_isWord {k : Keyword} (h : next.isWord k = true) :
    isWritten next.lexeme.category = true := by
  simp only [Next.isWord, Bool.and_eq_true, beq_iff_eq] at h
  rw [h.1]
  rfl

instance (e : Expect) (text : List Char) : TellsThat Shows (sign e text : m Unit) :=
  ⟨tells_step <| tells_peek_bind fun _ =>
    tells_ite (fun h => tells_take_visible (isWritten_of_isSign h))
    fun _ => tells_fail⟩

instance (e : Expect) (k : Keyword) : TellsThat Shows (keyword e k : m Unit) :=
  ⟨tells_step <| tells_peek_bind fun _ =>
    tells_ite (fun h => tells_take_visible (isWritten_of_isWord h))
    fun _ => tells_fail⟩

instance (e : Expect) : TellsThat Shows (name e : m Unit) :=
  ⟨tells_step <| tells_peek_bind fun _ =>
    tells_ite (fun h => tells_take_visible (isWritten_of_is h rfl))
    fun _ => tells_fail⟩

theorem shows_of_node {kind : Kind} {ts : List Tree}
    (h : ∃ gaps children, AreGaps gaps ∧ Shows children ∧ ts = gaps ++ [.node kind children]) :
      Shows ts := by
  obtain ⟨gaps, children, -, hchildren, rfl⟩ := h
  exact (shows_node hchildren).prepend gaps

instance {kind : Kind} (e : Expect) {body : m α} [hbody : TellsThat Shows body] :
    TellsThat Shows (node kind e body) :=
  ⟨(tells_node hbody.tells).mono (fun _ h => h) fun _ _ _ => shows_of_node⟩

section

variable {since : Nat}

instance (priority := low) {K : Tree → Prop} {P : List Tree → Prop} [hP : Follows K P] {x : m α}
    [hx : TellsOnly K x] : TellsSince since P P x :=
  .of_tells since (hx.tells.mono (fun _ h => h) fun _ _ _ hus _ hts => hP.append hts hus)

instance {kind : Kind} : TellsSince since Shows Shows (wrap kind since : m Unit) :=
  tellsSince_wrap since fun _ => shows_node

theorem tellsSince_shows_bind {x : m α} {f : α → m β} [hx : TellsThat Shows x]
    (hf : ∀ a, TellsSince since Shows Shows (f a)) :
    TellsSince since (All IsNeat) Shows (x >>= f) :=
  .bind (.of_tells since (hx.tells.mono (fun _ h => h) fun _ _ _ hus ts _ => hus.prepend ts)) hf

instance {x : m α} {f : α → m β} [TellsThat Shows x]
    [hf : ∀ a, TellsSince since Shows Shows (f a)] :
    TellsSince since (All IsNeat) Shows (x >>= f) :=
  tellsSince_shows_bind hf

theorem shows_mark_bind {e : Expect} {f : Nat → m α}
    (hf : ∀ since, TellsSince since (All IsNeat) Shows (f since)) :
    TellsThat Shows (mark e >>= f) := by
  refine ⟨(tells_mark_bind (P := All IsNeat) (by simp [All]) hf).mono (fun _ h => h) ?_⟩
  rintro _ _ _ ⟨gaps, us, -, hus, rfl⟩
  exact hus.prepend gaps

instance (e : Expect) {f : Nat → m α}
    [hf : ∀ since, TellsSince since (All IsNeat) Shows (f since)] :
    TellsThat Shows (mark e >>= f) :=
  shows_mark_bind hf

end

end

/-- A reader of every phrase of which expressions and their operands show. -/
class ShowingGrammar (g : Grammar source) : Prop where
  expression (after : Expect) (conditional : Bool) :
    TellsThat Shows (g (.expression after conditional))
  clause (after : Expect) (conditional : Bool) : TellsThat Shows (g (.clause after conditional))
  operand (after : Expect) : TellsThat Shows (g (.operand after))

attribute [instance] ShowingGrammar.expression ShowingGrammar.clause ShowingGrammar.operand

section

variable {g : Grammar source} [FlushGrammar g]

theorem tells_string {next : Next} (h : isWritten next.lexeme.category = true) :
    Tells (facing next) (string g) fun _ _ ts => Shows ts := by
  unfold string
  have hmark : Tells (facing (bare next)) (take .literal : Parser source Unit) fun _ _ ts =>
    Shows ts :=
    tells_take_visible h
  exact (tells_node_facing (tells_visible_bind hmark)).mono (fun _ h => h) fun _ _ _ =>
    shows_of_node

theorem tells_strings {next : Next} (h : isWritten next.lexeme.category = true) (after : Expect) :
    Tells (facing next) (strings g after) fun _ _ ts => Shows ts := by
  unfold strings
  exact tells_visible_bind (tells_string h)

instance : TellsThat Shows (Collection.round g) := by
  unfold Collection.round
  refine shows_mark_bind fun since => tellsSince_shows_bind fun _ => .after fun next => ?_
  split
  · infer_instance
  · exact .after fun plain => .after fun iterates => inferInstance

instance : TellsThat Shows (Collection.square g) := by
  unfold Collection.square
  dsimp only
  infer_instance

instance : TellsThat Shows (Collection.braces g) := by
  unfold Collection.braces
  refine .append fun _ => .bind fun next => ?_
  extract_lets closing
  have hclosing (u : Unit) : TellsPhrases (closing u) := by unfold closing; infer_instance
  clear_value closing
  repeat split
  all_goals infer_instance

instance (after : Expect) : TellsThat Shows (Operand.atom g after) := by
  unfold Operand.atom
  dsimp only
  refine ⟨tells_peek_bind fun next => ?_⟩
  split
  · rename_i hname
    refine tells_ite
      (fun _ => tells_visible_bind (tells_take_visible (by rw [hname]; rfl))) fun _ => ?_
    exact (inferInstance : TellsThat Shows (name {} >>= fun _ => pure Shape.name)).from _
  · rename_i hnumber
    exact tells_visible_bind (tells_take_visible (by rw [hnumber]; rfl))
  · rename_i hquote
    exact tells_visible_bind (tells_strings (by rw [hquote]; rfl) after)
  · rename_i hsymbol
    have hround : TellsThat Shows (Collection.round g) := inferInstance
    have hsquare : TellsThat Shows (Collection.square g >>= fun _ => pure Shape.other) :=
      inferInstance
    have hbraces : TellsThat Shows (Collection.braces g >>= fun _ => pure Shape.other) :=
      inferInstance
    refine tells_ite (fun _ => hround.from _) fun _ => tells_ite (fun _ => hsquare.from _) fun _ =>
      tells_ite (fun _ => hbraces.from _) fun _ => tells_ite (fun _ => ?_) fun _ => ?_
    · exact tells_visible_bind (tells_take_visible (by rw [hsymbol]; rfl))
    · exact tells_visible_bind tells_fail
  · exact tells_fail

instance (after : Expect) (stars : Nat) (bare : Bool) (since : Nat) (head : Shape) :
    TellsSince since Shows Shows (Operand.trailers g after stars bare since head) := by
  unfold Operand.trailers
  dsimp only
  infer_instance

variable [ShowingGrammar g]

instance (after : Expect) (stars : Nat) (bare : Bool) :
    TellsThat Shows (Operand.primary g after stars bare) := by
  unfold Operand.primary
  refine shows_mark_bind fun since => .after fun awaits => ?_
  extract_lets rest awaited
  have hrest (head : Shape) : TellsSince since Shows Shows (rest head) := by
    unfold rest
    extract_lets told
    have htold (u : Unit) : TellsSince since Shows Shows (told u) := by
      unfold told
      infer_instance
    clear_value told
    infer_instance
  clear_value rest
  infer_instance

instance (after : Expect) (stars : Nat) (bare : Bool) :
    TellsThat Shows (Operand.starred g after stars bare) := by
  unfold Operand.starred
  infer_instance

instance (after : Expect) : TellsThat Shows (Operand.operand g after) := by
  unfold Operand.operand
  infer_instance

instance (after : Expect) : TellsThat Shows (Expression.arithmetic g after) := by
  unfold Expression.arithmetic
  infer_instance

instance (after : Expect) : TellsThat Shows (Expression.comparison g after) := by
  unfold Expression.comparison
  infer_instance

instance {parameters : Parser source Unit} [TellsPhrases parameters] (after : Expect)
    (conditional : Bool) :
    TellsThat Shows (Expression.clause g parameters after conditional) := by
  unfold Expression.clause
  infer_instance

instance (after : Expect) (conditional : Bool) :
    TellsThat Shows (Expression.expression g after conditional) := by
  unfold Expression.expression
  infer_instance

instance (after : Expect) (stops : List Keyword) :
    TellsThat Shows (Values.expressions g after stops) := by
  unfold Values.expressions
  infer_instance

instance (after : Expect) : TellsThat Shows (Values.yieldPhrase g after) := by
  unfold Values.yieldPhrase
  infer_instance

end

instance (depth : Nat) : ShowingGrammar (Source.Syntax.phrase depth : Grammar source) := by
  induction depth with
  | zero =>
      exact ⟨fun _ _ => inferInstanceAs (TellsThat Shows (fail : Parser source Shape)),
        fun _ _ => inferInstanceAs (TellsThat Shows (fail : Parser source Shape)),
        fun _ => inferInstanceAs (TellsThat Shows (fail : Parser source Shape))⟩
  | succ depth ih =>
      constructor
      all_goals
        intros
        unfold Source.Syntax.phrase
        infer_instance

end Cythonizer.Proofs.Source.Visibility
