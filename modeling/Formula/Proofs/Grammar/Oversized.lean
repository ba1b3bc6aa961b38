import Mathlib.Data.List.Perm.Basic
import Formula.Proofs.Grammar.Unambiguous

/-!
# Oversized calls — which calls have too many arguments, and which is seen first

A call with more than `maxArguments` arguments is **oversized**. Of each one in a derivation the list `oversized` has
the comma of the first argument past them, and how many tokens of the sentence have been read where that argument ends.
The list has a call before the calls inside its arguments, whether those arguments are kept or not.

A reader from the left can tell that a call is oversized where that argument has been read to its end, and not before.
`noted` lists the same calls in that order (`noted_perm_oversized`): those inside the argument come before the call, and
those inside later arguments after it. No two of them are told at one place (`told_noted`), as a call goes on to its
parenthesis behind its arguments.

`Nested` is the nesting limit by itself: `Within` without the arguments of a call.
-/

namespace Formula

/-- **A call with too many arguments**: the comma of the first one past those it may have, and how many tokens of the
sentence are read where that argument ends. -/
structure Oversized where
  comma : Token
  read : Nat

namespace Derivation

variable {n : Nonterminal}

/-- **A derivation reached at a depth keeps the limits of nesting.** -/
def Nested : {n : Nonterminal} → Derivation n → (depth : Nat) → Prop
  | _, expression d, depth => d.Nested depth
  | _, chain first more, depth => depth + more.length ≤ maxNesting ∧ first.Nested depth ∧ more.Nested depth
  | _, product d, depth => d.Nested depth
  | _, factor d, depth => d.Nested depth
  | _, noLink, _ => True
  | _, link _ _ _ right more, depth => right.Nested depth ∧ more.Nested depth
  | _, signed _ _ operand, depth => depth + 1 ≤ maxNesting ∧ operand.Nested (depth + 1)
  | _, unsigned d, depth => depth + 1 ≤ maxNesting ∧ d.Nested (depth + 1)
  | _, plainPower d, depth => d.Nested depth
  | _, raised base _ exponent, depth => base.Nested depth ∧ exponent.Nested depth
  | _, emptyCall .., _ => True
  | _, fullCall _ _ first more _, depth => first.Nested depth ∧ more.Nested depth
  | _, plainCall d, depth => d.Nested depth
  | _, noArgument, _ => True
  | _, argument _ d more, depth => d.Nested depth ∧ more.Nested depth
  | _, number _, _ => True
  | _, name _, _ => True
  | _, group _ d _, depth => d.Nested depth

/-- **The first further argument past some slots**, behind so many tokens. -/
def past : {n : Nonterminal} → Derivation n → (slots before : Nat) → Option Oversized
  | _, argument comma d _, 0, before => some ⟨comma.token, before + 1 + d.tokens.length⟩
  | _, argument _ d more, slots + 1, before => more.past slots (before + 1 + d.tokens.length)
  | _, _, _, _ => none

/-- **The oversized calls of a derivation** behind so many tokens, each before those inside it. The first argument of a
call takes one of the places that it has. -/
def oversized : {n : Nonterminal} → Derivation n → (before : Nat) → List Oversized
  | _, expression d, before => d.oversized before
  | _, chain first more, before => first.oversized before ++ more.oversized (before + first.tokens.length)
  | _, product d, before => d.oversized before
  | _, factor d, before => d.oversized before
  | _, noLink, _ => []
  | _, link _ _ _ right more, before =>
    right.oversized (before + 1) ++ more.oversized (before + 1 + right.tokens.length)
  | _, signed _ _ operand, before => operand.oversized (before + 1)
  | _, unsigned d, before => d.oversized before
  | _, plainPower d, before => d.oversized before
  | _, raised base _ exponent, before =>
    base.oversized before ++ exponent.oversized (before + base.tokens.length + 1)
  | _, emptyCall .., _ => []
  | _, fullCall _ _ first more _, before =>
    (more.past (maxArguments - 1) (before + 2 + first.tokens.length)).toList ++
      (first.oversized (before + 2) ++ more.oversized (before + 2 + first.tokens.length))
  | _, plainCall d, before => d.oversized before
  | _, noArgument, _ => []
  | _, argument _ d more, before => d.oversized (before + 1) ++ more.oversized (before + 1 + d.tokens.length)
  | _, number _, _ => []
  | _, name _, _ => []
  | _, group _ d _, before => d.oversized (before + 1)

/-- **The oversized calls in the order in which they are told.** Of further arguments it matters how many of them have a
place yet, `none` once one without has been told. -/
def noted : {n : Nonterminal} → Derivation n → (slots : Option Nat) → (before : Nat) → List Oversized
  | _, expression d, _, before => d.noted none before
  | _, chain first more, _, before => first.noted none before ++ more.noted none (before + first.tokens.length)
  | _, product d, _, before => d.noted none before
  | _, factor d, _, before => d.noted none before
  | _, noLink, _, _ => []
  | _, link _ _ _ right more, _, before =>
    right.noted none (before + 1) ++ more.noted none (before + 1 + right.tokens.length)
  | _, signed _ _ operand, _, before => operand.noted none (before + 1)
  | _, unsigned d, _, before => d.noted none before
  | _, plainPower d, _, before => d.noted none before
  | _, raised base _ exponent, _, before =>
    base.noted none before ++ exponent.noted none (before + base.tokens.length + 1)
  | _, emptyCall .., _, _ => []
  | _, fullCall _ _ first more _, _, before =>
    first.noted none (before + 2) ++ more.noted (some (maxArguments - 1)) (before + 2 + first.tokens.length)
  | _, plainCall d, _, before => d.noted none before
  | _, noArgument, _, _ => []
  | _, argument _ d more, none, before =>
    d.noted none (before + 1) ++ more.noted none (before + 1 + d.tokens.length)
  | _, argument comma d more, some 0, before =>
    d.noted none (before + 1) ++
      ⟨comma.token, before + 1 + d.tokens.length⟩ :: more.noted none (before + 1 + d.tokens.length)
  | _, argument _ d more, some (slots + 1), before =>
    d.noted none (before + 1) ++ more.noted (some slots) (before + 1 + d.tokens.length)
  | _, number _, _, _ => []
  | _, name _, _, _ => []
  | _, group _ d _, _, before => d.noted none (before + 1)

/-- What repeats takes a token each time. -/
theorem length_le (d : Derivation n) : d.length ≤ d.tokens.length := by
  induction d with
  | link _ _ _ _ more _ ih | argument _ _ more _ ih =>
    rw [length, tokens, List.length_cons, List.length_append]
    omega
  | _ => exact Nat.zero_le _

/-- **The same calls are noted as are oversized**, and where there are slots, the argument past them as well. -/
theorem noted_perm (d : Derivation n) (slots : Option Nat) (before : Nat) :
    (d.noted slots before).Perm ((slots.bind fun k => d.past k before).toList ++ d.oversized before) := by
  induction d generalizing slots before with
  | expression _ ih | product _ ih | factor _ ih | unsigned _ ih | plainPower _ ih | plainCall _ ih =>
    cases slots <;> exact ih none before
  | signed _ _ _ ih | group _ _ _ ih => cases slots <;> exact ih none (before + 1)
  | noLink | emptyCall | noArgument | number | name => cases slots <;> exact .nil
  | chain first more ih ih' =>
    cases slots <;> exact (ih none before).append (ih' none (before + first.tokens.length))
  | link _ _ _ right more ih ih' =>
    cases slots <;> exact (ih none (before + 1)).append (ih' none (before + 1 + right.tokens.length))
  | raised base _ exponent ih ih' =>
    cases slots <;> exact (ih none before).append (ih' none (before + base.tokens.length + 1))
  | fullCall _ _ first more _ ih ih' =>
    -- the call itself is noted among its further arguments
    have all := (ih none (before + 2)).append (ih' (some (maxArguments - 1)) (before + 2 + first.tokens.length))
    have front := all.trans (List.perm_append_comm_assoc _ _ _)
    cases slots <;> exact front
  | argument comma d more ih ih' =>
    have inside := ih none (before + 1)
    rcases slots with _ | slots | slots
    · exact inside.append (ih' none (before + 1 + d.tokens.length))
    · have all := inside.append ((ih' none (before + 1 + d.tokens.length)).cons
        ⟨comma.token, before + 1 + d.tokens.length⟩)
      exact all.trans List.perm_middle
    · have all := inside.append (ih' (some slots) (before + 1 + d.tokens.length))
      exact all.trans (List.perm_append_comm_assoc _ _ _)

/-- **The oversized calls of a phrase are told once each.** -/
theorem noted_perm_oversized (d : Derivation n) (before : Nat) : (d.noted none before).Perm (d.oversized before) :=
  d.noted_perm none before

end Derivation

/-! ## The order in which they are told -/

/-- **Oversized calls are told one after the other**, after so many tokens and by so many. -/
structure Told (low high : Nat) (os : List Oversized) : Prop where
  sorted : os.Pairwise (·.read < ·.read)
  inside : ∀ o ∈ os, low < o.read ∧ o.read ≤ high

section Told

variable {low low' mid mid' high high' : Nat} {os os' : List Oversized}

theorem told_nil : Told low high [] := ⟨.nil, fun _ h => nomatch h⟩

theorem told_singleton {o : Oversized} (after : low < o.read) (within : o.read ≤ high) : Told low high [o] :=
  ⟨List.pairwise_singleton _ _, fun _ h => List.mem_singleton.mp h ▸ ⟨after, within⟩⟩

theorem Told.mono (h : Told low high os) (lower : low' ≤ low) (higher : high ≤ high') : Told low' high' os where
  sorted := h.sorted
  inside o ho := ⟨Nat.lt_of_le_of_lt lower (h.inside o ho).1, Nat.le_trans (h.inside o ho).2 higher⟩

/-- What is told of one part, and then of a later one. -/
theorem Told.append (h : Told low mid os) (h' : Told mid' high os') (apart : mid ≤ mid') (lower : low ≤ mid')
    (higher : mid ≤ high) : Told low high (os ++ os') where
  sorted := List.pairwise_append.mpr ⟨h.sorted, h'.sorted, fun o ho o' ho' =>
    Nat.lt_of_le_of_lt (Nat.le_trans (h.inside o ho).2 apart) (h'.inside o' ho').1⟩
  inside := List.forall_mem_append.mpr
    ⟨(h.mono (Nat.le_refl _) higher).inside, (h'.mono lower (Nat.le_refl _)).inside⟩

end Told

/-- How many tokens stand at the end of a phrase behind every argument in it: one at least, but for arguments. -/
def Nonterminal.slack : Nonterminal → Nat
  | further => 0
  | _ => 1

/-- **Oversized calls are told one after the other**, each before its phrase ends. -/
theorem Derivation.told_noted {n : Nonterminal} (d : Derivation n) (slots : Option Nat) (before : Nat) :
    Told before (before + d.tokens.length - n.slack) (d.noted slots before) := by
  induction d generalizing slots before with
  | expression _ ih | product _ ih | factor _ ih | unsigned _ ih | plainPower _ ih | plainCall _ ih =>
    exact ih none before
  | noLink | emptyCall | noArgument | number | name => exact told_nil
  | signed _ _ operand ih =>
    have inside := ih none (before + 1)
    simp only [tokens, List.length_cons, Nonterminal.slack] at inside ⊢
    exact inside.mono (by omega) (by omega)
  | group _ d _ ih =>
    have inside := ih none (before + 1)
    simp only [tokens, List.length_cons, List.length_append, Nonterminal.slack] at inside ⊢
    exact inside.mono (by omega) (by omega)
  | chain first more ih ih' =>
    have left := ih none before
    have right := ih' none (before + first.tokens.length)
    simp only [tokens, List.length_append, Nonterminal.slack] at left right ⊢
    exact (left.append right (by omega) (by omega) (by omega)).mono (by omega) (by omega)
  | link _ _ _ right more ih ih' =>
    have left := ih none (before + 1)
    have right := ih' none (before + 1 + right.tokens.length)
    simp only [tokens, List.length_cons, List.length_append, Nonterminal.slack] at left right ⊢
    exact (left.append right (by omega) (by omega) (by omega)).mono (by omega) (by omega)
  | raised base _ exponent ih ih' =>
    have left := ih none before
    have right := ih' none (before + base.tokens.length + 1)
    simp only [tokens, List.length_cons, List.length_append, Nonterminal.slack] at left right ⊢
    exact (left.append right (by omega) (by omega) (by omega)).mono (by omega) (by omega)
  | fullCall _ _ first more _ ih ih' =>
    have left := ih none (before + 2)
    have right := ih' (some (maxArguments - 1)) (before + 2 + first.tokens.length)
    simp only [tokens, List.length_cons, List.length_append, Nonterminal.slack] at left right ⊢
    exact (left.append right (by omega) (by omega) (by omega)).mono (by omega) (by omega)
  | argument comma d more ih ih' =>
    have inside := ih none (before + 1)
    have later (slots : Option Nat) := ih' slots (before + 1 + d.tokens.length)
    simp only [tokens, List.length_cons, List.length_append, Nonterminal.slack] at inside later ⊢
    rcases slots with _ | slots | slots
    · exact (inside.append (later none) (by omega) (by omega) (by omega)).mono (by omega) (by omega)
    · -- the calls inside the argument are told before it ends
      have call : Told (before + d.tokens.length) (before + 1 + d.tokens.length)
          [⟨comma.token, before + 1 + d.tokens.length⟩] := told_singleton (by simp only; omega) (Nat.le_refl _)
      have rest := call.append (later none) (by omega) (by omega) (by omega)
      have inside := inside.mono (Nat.le_succ before) (Nat.le_refl _)
      exact (inside.append rest (by omega) (by omega) (by omega)).mono (by omega) (by omega)
    · exact (inside.append (later (some slots)) (by omega) (by omega) (by omega)).mono (by omega) (by omega)

end Formula
