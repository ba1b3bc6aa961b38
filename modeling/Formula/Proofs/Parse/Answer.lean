import Formula.Parse.Expression

/-!
# Answers — what a parser comes to

The **answer** of a parser on some tokens is its value, the tokens left and the faults it noted, the rest
of the trace aside. Each parser that the grammar is made of has one equation here that says what it
answers, or what a parser that begins with it answers; with these no later proof opens a trace.

Two answers matter. A parser that notes no fault is followed by the next one as if it were not there
(`answer_bind`); one that notes a fault decides what the first fault of everything after it is
(`FailsAt.bind`), whatever comes after it does with the value.
-/

namespace Formula

namespace Tokens

variable {t : Token} {words : List Token} {stop : Stop}

@[simp] theorem head_cons : (⟨t :: words, stop⟩ : Tokens).head = t := rfl

@[simp] theorem head_nil : (⟨[], stop⟩ : Tokens).head = stop.token := rfl

@[simp] theorem tail_cons : (⟨t :: words, stop⟩ : Tokens).tail = ⟨words, stop⟩ := rfl

theorem kind_stop (stop : Stop) : stop.token.kind = .endOfInput ∨ stop.token.kind = .invalid := by
  cases stop
  · exact .inl rfl
  · exact .inr rfl

/-- **Where the token at the front is of a kind that is not a stop's, there is a word.** -/
theorem exists_word {kinds : TokenSet} (ends : kinds.contains .endOfInput = false)
    (stuck : kinds.contains .invalid = false) (h : kinds.contains (⟨words, stop⟩ : Tokens).head.kind = true) :
    ∃ t ts, words = t :: ts ∧ kinds.contains t.kind = true := by
  cases words with
  | cons t ts => exact ⟨t, ts, rfl, h⟩
  | nil =>
    rw [head_nil] at h
    rcases kind_stop stop with hk | hk <;> rw [hk] at h
    · exact (Bool.false_ne_true (ends.symm.trans h)).elim
    · exact (Bool.false_ne_true (stuck.symm.trans h)).elim

end Tokens

/-- **What a parser answers.** -/
structure Answer (α : Type) where
  value : α
  rest : Tokens
  faults : List Fault

/-- The answer with some faults noted before it. -/
def Answer.after {α : Type} (faults : List Fault) (a : Answer α) : Answer α :=
  { a with faults := faults ++ a.faults }

@[simp] theorem Answer.after_nil {α : Type} (a : Answer α) : a.after [] = a := rfl

theorem faultsOf_append (trace more : List Event) : faultsOf (trace ++ more) = faultsOf trace ++ faultsOf more :=
  List.filterMap_append

theorem faultsOf_arrival (ts : Tokens) : faultsOf (Parser.arrival ts) = [] := by
  unfold Parser.arrival
  split <;> rfl

namespace Parser

variable {α β : Type} {ts us : Tokens}

def answer (p : Parser α) (ts : Tokens) : Answer α :=
  ⟨(p.run ts).value, (p.run ts).rest, faultsOf (p.run ts).trace⟩

@[simp] theorem answer_pure (a : α) (ts : Tokens) : (pure a : Parser α).answer ts = ⟨a, ts, []⟩ := rfl

/-! ## One parser after another -/

/-- **After a parser that notes no fault, what is answered is what the next one answers.** -/
theorem answer_bind {p : Parser α} {a : α} (h : p.answer ts = ⟨a, us, []⟩) (f : α → Parser β) :
    (p >>= f).answer ts = (f a).answer us := by
  obtain ⟨rfl, rfl, hfaults⟩ := Answer.mk.inj h
  simp only [answer, bind_run, faultsOf_append, hfaults, List.nil_append]

theorem answer_assoc {γ : Type} (p : Parser α) (f : α → Parser β) (g : β → Parser γ) :
    (p >>= f >>= g).answer ts = (p >>= fun a => f a >>= g).answer ts := by
  simp only [answer, bind_run, List.append_assoc]

/-- **The first fault** of a parser on some tokens is this one. -/
def FailsAt (p : Parser α) (ts : Tokens) (f : Fault) : Prop := (p.answer ts).faults.head? = some f

/-- **What comes after a parser does not change its first fault.** -/
theorem FailsAt.bind {p : Parser α} {f : Fault} (h : p.FailsAt ts f) (k : α → Parser β) :
    (p >>= k).FailsAt ts f := by
  have hp : (faultsOf (p.run ts).trace).head? = some f := h
  simp only [FailsAt, answer, bind_run, faultsOf_append, List.head?_append, hp, Option.some_or]

/-! ## The parsers that the grammar is made of -/

@[simp] theorem answer_peek (f : Token → Parser β) : (peek >>= f).answer ts = (f ts.head).answer ts := rfl

@[simp] theorem answer_sees (kinds : TokenSet) (f : Bool → Parser β) :
    (sees kinds >>= f).answer ts = (f (kinds.contains ts.head.kind)).answer ts := rfl

@[simp] theorem answer_wordsLeft (f : Nat → Parser β) :
    (wordsLeft >>= f).answer ts = (f ts.words.length).answer ts := rfl

@[simp] theorem answer_arrive (f : Unit → Parser β) : (arrive >>= f).answer ts = (f ()).answer ts :=
  answer_bind (by simp only [answer, arrive, faultsOf_arrival]) f

@[simp] theorem answer_take (f : Token → Parser β) : (take >>= f).answer ts = (f ts.head).answer ts.tail := by
  refine answer_bind ?_ f
  by_cases h : ts.words.isEmpty
  · simp only [answer, take, if_pos h]
    rfl
  · simp only [answer, take, if_neg h, Answer.mk.injEq, true_and]
    exact faultsOf_arrival ts.tail

@[simp] theorem answer_fault (cause : FaultCause) (offset : Nat) (f : Unit → Parser β) :
    (fault cause offset >>= f).answer ts = ((f ()).answer ts).after [⟨cause, offset⟩] := rfl

@[simp] theorem answer_deeper (p : Parser α) : (deeper p).answer ts = p.answer ts := by
  have closed : faultsOf [Event.closed] = [] := rfl
  have opened (trace : List Event) : faultsOf (.opened :: trace) = faultsOf trace := rfl
  simp only [answer, deeper, opened, faultsOf_append, closed, List.append_nil]

@[simp] theorem answer_tooDeep :
    (tooDeep : Parser (Option α)).answer ts = ⟨none, ts, [⟨.tooDeep, ts.head.offset⟩]⟩ := rfl

theorem answer_expect {wanted : TokenSet} (h : wanted.contains ts.head.kind = true) (f : Option Token → Parser β) :
    (expect wanted >>= f).answer ts = (f (some ts.head)).answer ts.tail := by
  refine answer_bind ?_ f
  simp only [expect, answer_sees, h, if_true, answer_take, answer_pure]

theorem failsAt_expect {wanted : TokenSet} (h : wanted.contains ts.head.kind = false)
    (f : Option Token → Parser β) :
    (expect wanted >>= f).FailsAt ts ⟨.expected wanted ts.head.kind, ts.head.offset⟩ := by
  refine FailsAt.bind ?_ f
  simp only [FailsAt, expect, answer_sees, h, Bool.false_eq_true, if_false, answer_peek, answer_fault,
    answer_pure]
  rfl

end Parser

end Formula
