import Formula.Proofs.Compile.NormalForm

/-!
# Rebuilding — a node made anew with the folding constructors

A node that was put together by hand can be made anew from its leaves up, with the folding constructors in place of
the plain ones (`rebuilt`). It has the same value then, whatever its cells hold, as long as no call of it folds that
has more arguments than an evaluation hands over (`rebuilds`): a native is called with the same arguments, all of
them, at once or later.

Beyond `maxArguments` the two part. An evaluated call hands over the first arguments only, those that it has slots
for, while a call that folds hands over all (`eval_call_numbers`, `calling_numbers`). Compiled calls have no more than
that, so no compiled node shows the difference; a node made by hand may (`rebuilt_ne_longCall`).
-/

namespace Formula.Node

mutual
/-- **A node made anew from its leaves up** with the folding constructors; none when the native of a call that folds
has no value. -/
def rebuilt : Node → Option Node
  | number v => some (number v)
  | cell x => some (cell x)
  | unary s n => n.rebuilt.map (signed s)
  | binary op l r => do
    let l ← l.rebuilt
    let r ← r.rebuilt
    return operation op l r
  | call f as => (rebuiltAll as).bind (calling f)
/-- Some nodes made anew. -/
def rebuiltAll : List Node → Option (List Node)
  | [] => some []
  | n :: ns => do
    let n ← n.rebuilt
    let ns ← rebuiltAll ns
    return n :: ns
end

variable {read : String → Float} {n m : Node} {as ms : List Node} {f : Native}

theorem length_rebuiltAll : ∀ {as ms : List Node}, rebuiltAll as = some ms → ms.length = as.length
  | [], ms, h => by
    obtain rfl := Option.some.inj h
    rfl
  | a :: as, ms, h => by
    obtain ⟨n, -, h⟩ := Option.bind_eq_some_iff.mp h
    obtain ⟨ns, hns, h⟩ := Option.bind_eq_some_iff.mp h
    obtain rfl := Option.some.inj h
    exact congrArg (· + 1) (length_rebuiltAll hns)

mutual
/-- **A node made anew is in normal form**, and reads what the node reads. -/
theorem folds_rebuilt : ∀ {n m : Node}, n.rebuilt = some m → m.Folds n.cells n.size
  | number v, m, h => by
    obtain rfl := Option.some.inj h
    exact .number v
  | cell x, m, h => by
    obtain rfl := Option.some.inj h
    exact ⟨isFolded_cell x, rfl, Nat.le_refl _⟩
  | unary s n, m, h => by
    obtain ⟨k, hk, rfl⟩ := Option.map_eq_some_iff.mp h
    rw [size, Nat.add_comm]
    exact (folds_rebuilt hk).signed s
  | binary op l r, m, h => by
    obtain ⟨k, hk, h⟩ := Option.bind_eq_some_iff.mp h
    obtain ⟨k', hk', h⟩ := Option.bind_eq_some_iff.mp h
    obtain rfl := Option.some.inj h
    rw [cells_binary, size, Nat.add_comm]
    exact (folds_rebuilt hk).operation (folds_rebuilt hk') op
  | call f as, m, h => by
    obtain ⟨ms, hms, h⟩ := Option.bind_eq_some_iff.mp h
    rw [cells_call, size, Nat.add_comm]
    exact (foldsAll_rebuiltAll hms).calling h
/-- Nodes made anew read what the nodes read. -/
theorem foldsAll_rebuiltAll : ∀ {as ms : List Node}, rebuiltAll as = some ms →
    FoldsAll ms (as.flatMap cells) (sizeAll as)
  | [], ms, h => by
    obtain rfl := Option.some.inj h
    exact .nil
  | a :: as, ms, h => by
    obtain ⟨n, hn, h⟩ := Option.bind_eq_some_iff.mp h
    obtain ⟨ns, hns, h⟩ := Option.bind_eq_some_iff.mp h
    obtain rfl := Option.some.inj h
    exact .cons (folds_rebuilt hn) (foldsAll_rebuiltAll hns)
end

/-- **A call that folds when it is made anew reads no cell.** -/
theorem cells_of_constants?_rebuiltAll {xs : List Float} (h : rebuiltAll as = some ms) (constant : constants? ms = some xs) :
    as.flatMap cells = [] :=
  (foldsAll_rebuiltAll h).cells_eq.symm.trans (cells_of_constants? constant)

/-! ## Values -/

/-- **Arguments are handed over alike** at once and later: there are slots for all of them, or a call of them reads a
cell and does not fold. -/
def HandedAlike (as : List Node) : Prop := as.length ≤ maxArguments ∨ as.flatMap cells ≠ []

/-- **Every call among some nodes hands its arguments over alike.** -/
def CallsAlike (nodes : List Node) : Prop := ∀ f as, call f as ∈ nodes → HandedAlike as

section CallsAlike

variable {ns ks : List Node}

theorem CallsAlike.tail (h : CallsAlike (n :: ns)) : CallsAlike ns :=
  fun f as mem => h f as (List.mem_cons_of_mem _ mem)

theorem CallsAlike.left (h : CallsAlike (ns ++ ks)) : CallsAlike ns :=
  fun f as mem => h f as (List.mem_append_left _ mem)

theorem CallsAlike.right (h : CallsAlike (ns ++ ks)) : CallsAlike ks :=
  fun f as mem => h f as (List.mem_append_right _ mem)

end CallsAlike

/-- Arguments that are handed over alike have slots when their call folds. -/
theorem HandedAlike.length_le {xs : List Float} (alike : HandedAlike as) (h : rebuiltAll as = some ms)
    (constant : constants? ms = some xs) : ms.length ≤ maxArguments := by
  rw [length_rebuiltAll h]
  exact alike.resolve_right (not_not_intro (cells_of_constants?_rebuiltAll h constant))

mutual
/-- **A node made anew has the value of the node.** -/
theorem eval_rebuilt (read : String → Float) : ∀ {n m : Node}, CallsAlike n.preOrder → n.rebuilt = some m →
    m.eval read = n.eval read
  | number v, m, _, h => by
    obtain rfl := Option.some.inj h
    rfl
  | cell x, m, _, h => by
    obtain rfl := Option.some.inj h
    rfl
  | unary s n, m, alike, h => by
    obtain ⟨k, hk, rfl⟩ := Option.map_eq_some_iff.mp h
    rw [eval_signed, eval_rebuilt read alike.tail hk, eval]
  | binary op l r, m, alike, h => by
    obtain ⟨k, hk, h⟩ := Option.bind_eq_some_iff.mp h
    obtain ⟨k', hk', h⟩ := Option.bind_eq_some_iff.mp h
    obtain rfl := Option.some.inj h
    rw [eval_operation, eval_rebuilt read alike.tail.left hk, eval_rebuilt read alike.tail.right hk', eval]
  | call f as, m, alike, h => by
    obtain ⟨ms, hms, h⟩ := Option.bind_eq_some_iff.mp h
    rw [eval, ← evalAll_rebuiltAll read maxArguments alike.tail hms]
    cases constant : constants? ms with
    | none =>
      rw [calling, constant] at h
      obtain rfl := Option.some.inj h
      rw [eval]
    | some xs =>
      have fits := (alike f as (mem_preOrder_self _)).length_le hms constant
      rw [eval_calling h fits, evalAll_eq_mapM read fits]
/-- Arguments made anew have the values of the arguments. -/
theorem evalAll_rebuiltAll (read : String → Float) : ∀ {as ms : List Node} (slots : Nat),
    CallsAlike (preOrderAll as) → rebuiltAll as = some ms → evalAll read slots ms = evalAll read slots as
  | [], ms, _, _, h => by
    obtain rfl := Option.some.inj h
    rfl
  | a :: as, ms, slots, alike, h => by
    obtain ⟨n, hn, h⟩ := Option.bind_eq_some_iff.mp h
    obtain ⟨ns, hns, h⟩ := Option.bind_eq_some_iff.mp h
    obtain rfl := Option.some.inj h
    cases slots with
    | zero => rfl
    | succ slots =>
      rw [evalAll, evalAll, eval_rebuilt read alike.left hn, evalAll_rebuiltAll read slots alike.right hns]
end

/-! ## Nodes that cannot be made anew -/

/-- **A call without cells has no value** among some nodes, because its native has none. -/
def Fails (read : String → Float) (nodes : List Node) : Prop :=
  ∃ f as, call f as ∈ nodes ∧ as.flatMap cells = [] ∧ (call f as).eval read = none

theorem Fails.mono {ns ks : List Node} (h : Fails read ns) (subset : ns ⊆ ks) : Fails read ks := by
  obtain ⟨f, as, mem, missing⟩ := h
  exact ⟨f, as, subset mem, missing⟩

mutual
/-- **A node cannot be made anew only for want of a native's value**, at a call whose evaluation has none either. -/
theorem fails_of_rebuilt (read : String → Float) : ∀ {n : Node}, CallsAlike n.preOrder → n.rebuilt = none →
    Fails read n.preOrder
  | number _, _, h => nomatch h
  | cell _, _, h => nomatch h
  | unary s n, alike, h =>
    (fails_of_rebuilt read alike.tail (Option.map_eq_none_iff.mp h)).mono (List.subset_cons_self ..)
  | binary op l r, alike, h => by
    have operands : Fails read (l.preOrder ++ r.preOrder) := by
      cases hl : l.rebuilt with
      | none => exact (fails_of_rebuilt read alike.tail.left hl).mono (List.subset_append_left ..)
      | some k =>
        have hr : r.rebuilt = none := Option.eq_none_iff_forall_ne_some.mpr (by simpa [rebuilt, hl] using h)
        exact (fails_of_rebuilt read alike.tail.right hr).mono (List.subset_append_right ..)
    exact operands.mono (List.subset_cons_self ..)
  | call f as, alike, h => by
    cases hms : rebuiltAll as with
    | none => exact (fails_of_rebuiltAll read alike.tail hms).mono (List.subset_cons_self ..)
    | some ms =>
      have called : calling f ms = none := by
        simpa only [rebuilt, hms, Option.bind_some] using h
      obtain ⟨xs, constant, missing⟩ := calling_eq_none called
      have fits := (alike f as (mem_preOrder_self _)).length_le hms constant
      refine ⟨f, as, mem_preOrder_self _, cells_of_constants?_rebuiltAll hms constant, ?_⟩
      rw [eval, ← evalAll_rebuiltAll read maxArguments alike.tail hms, evalAll_eq_mapM read fits,
        mapM_of_constants? constant]
      exact missing
theorem fails_of_rebuiltAll (read : String → Float) : ∀ {as : List Node}, CallsAlike (preOrderAll as) →
    rebuiltAll as = none → Fails read (preOrderAll as)
  | [], _, h => nomatch h
  | a :: as, alike, h => by
    cases ha : a.rebuilt with
    | none => exact (fails_of_rebuilt read alike.left ha).mono (List.subset_append_left ..)
    | some n =>
      have has : rebuiltAll as = none := Option.eq_none_iff_forall_ne_some.mpr (by simpa [rebuiltAll, ha] using h)
      exact (fails_of_rebuiltAll read alike.right has).mono (List.subset_append_right ..)
end

/-! ## More arguments than slots -/

/-- **An evaluation hands over the first arguments**, as many as there are slots. -/
theorem evalAll_eq_mapM_take (read : String → Float) : ∀ (slots : Nat) (ns : List Node),
    evalAll read slots ns = (ns.take slots).mapM (eval read)
  | 0, _ => by rw [evalAll, List.take_zero, List.mapM_nil, Option.pure_def]
  | _ + 1, [] => by rw [evalAll, List.take_nil, List.mapM_nil, Option.pure_def]
  | slots + 1, n :: ns => by
    rw [evalAll, List.take_succ_cons, List.mapM_cons, evalAll_eq_mapM_take read slots ns]

theorem constants?_numbers (xs : List Float) : constants? (xs.map number) = some xs := by
  induction xs with
  | nil => rfl
  | cons x xs ih =>
    rw [List.map_cons, constants?, ih]
    rfl

theorem rebuiltAll_numbers (xs : List Float) : rebuiltAll (xs.map number) = some (xs.map number) := by
  induction xs with
  | nil => rfl
  | cons x xs ih =>
    rw [List.map_cons, rebuiltAll, ih]
    rfl

/-- **A call on numbers folds with all of them.** -/
theorem calling_numbers (f : Native) (xs : List Float) : calling f (xs.map number) = (f xs).map number := by
  rw [calling, constants?_numbers]

/-- **A call on numbers is evaluated with the first of them.** -/
theorem eval_call_numbers (read : String → Float) (f : Native) (xs : List Float) :
    (call f (xs.map number)).eval read = f (xs.take maxArguments) := by
  have values : ((xs.take maxArguments).map number).mapM (eval read) = some (xs.take maxArguments) :=
    mapM_of_constants? (constants?_numbers _)
  rw [eval, evalAll_eq_mapM_take, ← List.map_take, values]
  rfl

/-! ## Both together -/

/-- **A node and the node made anew have the same value**, its cells having the values that `read` gives. -/
structure Rebuilds (n : Node) (read : String → Float) : Prop where
  /-- What is made anew has the value of the node. -/
  eval_eq : ∀ m, n.rebuilt = some m → m.eval read = n.eval read
  /-- Nothing is made anew only where a native has no value, at a call that has none when it is evaluated. -/
  fails : n.rebuilt = none → Fails read n.preOrder
  /-- An evaluated call hands over the values of its first arguments, as many as there are slots, -/
  evaluated : ∀ f as, call f as ∈ n.preOrder →
    (call f as).eval read = ((as.take maxArguments).mapM (eval read)).bind f
  /-- and one that folds hands over the very same list, of the values of all its arguments. -/
  folded : ∀ f as xs, call f as ∈ n.preOrder → rebuiltAll as = some (xs.map number) →
    (call f as).rebuilt = (f xs).map number ∧ as.take maxArguments = as ∧ as.mapM (eval read) = some xs

/-- **A node whose calls hand their arguments over alike has the value of the node made anew.** -/
theorem rebuilds (alike : CallsAlike n.preOrder) (read : String → Float) : n.Rebuilds read where
  eval_eq _ h := eval_rebuilt read alike h
  fails h := fails_of_rebuilt read alike h
  evaluated f as _ := by rw [eval, evalAll_eq_mapM_take]
  folded f as xs mem h := by
    have fits := (alike f as mem).length_le h (constants?_numbers xs)
    have length := length_rebuiltAll h
    have inner : CallsAlike (call f as).preOrder := fun g bs here => alike g bs (preOrder_subset mem here)
    have values := evalAll_rebuiltAll read maxArguments inner.tail h
    rw [evalAll_eq_mapM read fits, mapM_of_constants? (constants?_numbers xs), evalAll_eq_mapM read (length ▸ fits)]
      at values
    refine ⟨?_, List.take_of_length_le (length ▸ fits), values.symm⟩
    rw [rebuilt, h, Option.bind_some, calling_numbers]

/-- The native that tells how many arguments it was given. -/
def countArguments : Native := fun xs => some (Binary64.ofInt xs.length)

/-- A call with one argument more than there are slots, the first of them a cell. -/
def openCall : Node := call countArguments (cell "x" :: (List.replicate maxArguments 1).map number)

/-- It does not fold, and counts as many arguments as there are slots either way. -/
theorem rebuilds_openCall :
    CallsAlike openCall.preOrder ∧ openCall.rebuilt = some openCall ∧ openCall.Rebuilds (fun _ => 0) := by
  have alike : CallsAlike openCall.preOrder := by
    intro f as mem
    rcases List.mem_cons.mp mem with same | mem
    · obtain ⟨-, rfl⟩ := Node.call.inj same
      exact .inr (List.cons_ne_nil _ _)
    · -- no argument of the call is a call
      rw [preOrderAll_eq_flatMap] at mem
      obtain ⟨a, ha, mem⟩ := List.mem_flatMap.mp mem
      rcases List.mem_cons.mp ha with rfl | ha
      · cases List.mem_singleton.mp mem
      · obtain ⟨v, -, rfl⟩ := List.mem_map.mp ha
        cases List.mem_singleton.mp mem
  have rebuilt : openCall.rebuilt = some openCall := by
    rw [openCall, Node.rebuilt, rebuiltAll, rebuiltAll_numbers]
    rfl
  exact ⟨alike, rebuilt, rebuilds alike _⟩

/-- A call with one argument more than there are slots. -/
def longCall : Node := call countArguments ((List.replicate (maxArguments + 1) 1).map number)

/-- **A call with more constants than slots has another value when it is made anew**: it counts all of them then, and
one less when it is evaluated. -/
theorem rebuilt_ne_longCall : ¬ ∀ (n m : Node) (read : String → Float), n.rebuilt = some m →
    m.eval read = n.eval read := by
  intro same
  have folds : longCall.rebuilt = some (number (Binary64.ofInt 257)) := by
    rw [longCall, rebuilt, rebuiltAll_numbers, Option.bind_some, calling_numbers, countArguments, List.length_replicate]
    rfl
  have evaluates : longCall.eval (fun _ => 0) = some (Binary64.ofInt 256) := by
    rw [longCall, eval_call_numbers, countArguments, List.take_replicate, List.length_replicate]
    rfl
  have equal := same _ _ (fun _ => 0) folds
  rw [evaluates, eval, Option.some.injEq] at equal
  exact absurd equal (by decide +kernel)

end Formula.Node
