import Formula.Token.Scan

/-!
# Order — the tokens of a source stand one after the other

Each token of a scan begins where the one before it has ended, or later, and only the last one is the
token of a stop (`Tokens.inOrder_ofSource`). So an offset finds at most one token, and what stands before
a token is what has a smaller offset (`Tokens.InOrder.before_eq`, `Tokens.InOrder.at?_eq`): a fault that
knows an offset knows a place in the token sequence.
-/

namespace Formula

/-- Whether a word can be of a kind; the others are those of the stops and of white space. -/
def TokenKind.isWord : TokenKind → Bool
  | endOfInput | invalid | blank => false
  | _ => true

/-! ## One step -/

variable {c : Char} {cs rest : List Char} {kind : TokenKind} {more offset offset' : Nat} {t : Token}

theorem symbolKind?_isWord (h : symbolKind? c = some kind) : kind.isWord = true := by
  unfold symbolKind? at h
  split at h <;> first | (cases h; rfl) | cases h

/-- **What begins a token begins a word.** -/
theorem wordAt_isWord (h : wordAt c rest = some (kind, more)) : kind.isWord = true := by
  unfold wordAt at h
  split at h
  next symbol =>
    obtain ⟨rfl, -⟩ := Prod.mk.inj (Option.some.inj h)
    exact symbolKind?_isWord symbol
  next =>
    split at h
    · obtain ⟨rfl, -⟩ := Prod.mk.inj (Option.some.inj h)
      rfl
    · split at h
      · split at h
        · cases h
        · obtain ⟨rfl, -⟩ := Prod.mk.inj (Option.some.inj h)
          rfl
      · cases h

/-- **A step hands out a word**, which begins no earlier than the step and ends before the next one. -/
theorem step_word (h : step offset cs = .word t offset' rest) :
    offset ≤ t.offset ∧ t.offset < offset' ∧ t.kind.isWord = true := by
  -- on the white space that the step passes over
  induction cs generalizing offset with
  | nil => cases h
  | cons c cs ih =>
    unfold step at h
    split at h
    · obtain ⟨from', before, word⟩ := ih h
      exact ⟨by omega, before, word⟩
    · split at h
      next => cases h
      next kind more word =>
        obtain ⟨rfl, rfl, -⟩ := Scanned.word.inj h
        refine ⟨Nat.le_refl _, Nat.lt_add_of_pos_right ?_, wordAt_isWord word⟩
        rw [String.ofList_cons, String.utf8ByteSize_append, String.utf8ByteSize_singleton]
        exact Nat.add_pos_left c.utf8Size_pos _

/-- **A step stops** no earlier than it begins. -/
theorem step_stop {s : Stop} (h : step offset cs = .stop s) : offset ≤ s.token.offset := by
  induction cs generalizing offset with
  | nil =>
    obtain rfl := Scanned.stop.inj h
    exact Nat.le_refl _
  | cons c cs ih =>
    unfold step at h
    split at h
    · exact Nat.le_of_add_right_le (ih h)
    · split at h
      next =>
        obtain rfl := Scanned.stop.inj h
        exact Nat.le_refl _
      next => cases h

/-! ## A whole scan -/

namespace Tokens

/-- **Tokens in order from an offset on**: no two begin at the same offset, and only the stop's is no
word. -/
structure InOrder (offset : Nat) (ts : Tokens) : Prop where
  bound : ∀ t ∈ ts.toList, offset ≤ t.offset
  sorted : ts.toList.Pairwise (·.offset < ·.offset)
  words : ∀ t ∈ ts.words, t.kind.isWord = true

/-- One more word in front keeps the order, when it begins before all others. -/
theorem InOrder.cons {ts : Tokens} (h : ts.InOrder offset') (begins : offset ≤ t.offset)
    (before : t.offset < offset') (word : t.kind.isWord = true) : (ts.cons t).InOrder offset where
  bound := by
    intro s hs
    rcases List.mem_cons.mp hs with rfl | hs
    · exact begins
    · exact Nat.le_trans begins (Nat.le_trans (Nat.le_of_lt before) (h.bound s hs))
  sorted := List.pairwise_cons.mpr ⟨fun s hs => Nat.lt_of_lt_of_le before (h.bound s hs), h.sorted⟩
  words := by
    intro s hs
    rcases List.mem_cons.mp hs with rfl | hs
    · exact word
    · exact h.words s hs

theorem ofChars_of_word (h : step offset cs = .word t offset' rest) :
    ofChars offset cs = (ofChars offset' rest).cons t := by
  rw [ofChars]
  split
  next stop => rw [h] at stop; cases stop
  next word =>
    obtain ⟨rfl, rfl, rfl⟩ := Scanned.word.inj (h.symm.trans word)
    rfl

theorem ofChars_of_stop {s : Stop} (h : step offset cs = .stop s) : ofChars offset cs = ⟨[], s⟩ := by
  rw [ofChars]
  split
  next stop => rw [Scanned.stop.inj (h.symm.trans stop)]
  next word => rw [h] at word; cases word

theorem inOrder_ofChars (offset : Nat) (cs : List Char) : (ofChars offset cs).InOrder offset := by
  fun_induction ofChars offset cs with
  | case1 offset cs s h =>
    refine ⟨?_, List.pairwise_singleton _ _, fun _ h => nomatch h⟩
    intro t ht
    obtain rfl := List.mem_singleton.mp ht
    exact step_stop h
  | case2 offset cs t offset' rest h ih =>
    obtain ⟨begins, before, word⟩ := step_word h
    exact ih.cons begins before word

/-- **The tokens of a source are in order.** -/
theorem inOrder_ofSource (source : String) : (ofSource source).InOrder 0 := inOrder_ofChars 0 source.toList

/-! ## Places -/

def before (ts : Tokens) (offset : Nat) : List Token := ts.toList.filter (·.offset < offset)

def at? (ts : Tokens) (offset : Nat) : Option Token := ts.toList.find? (·.offset = offset)

/-- All tokens from the first one on, which may be the stop's. -/
theorem toList_eq_head_cons (ts : Tokens) : ∃ us, ts.toList = ts.head :: us := by
  obtain ⟨words, stop⟩ := ts
  cases words with
  | nil => exact ⟨[], rfl⟩
  | cons t words => exact ⟨words ++ [stop.token], rfl⟩

section Place

variable {ts : Tokens} {taken left : List Token}

/-- Where the words are cut in two, all before the cut are before the token behind it, and that one is
before the others. -/
theorem InOrder.cut (h : ts.InOrder offset) (split : ts.words = taken ++ left) :
    ∃ us, ts.toList = taken ++ (⟨left, ts.stop⟩ : Tokens).head :: us ∧
      (∀ t ∈ taken, t.offset < (⟨left, ts.stop⟩ : Tokens).head.offset) ∧
      (∀ t ∈ us, (⟨left, ts.stop⟩ : Tokens).head.offset < t.offset) := by
  obtain ⟨us, hus⟩ := toList_eq_head_cons ⟨left, ts.stop⟩
  have hall : ts.toList = taken ++ (⟨left, ts.stop⟩ : Tokens).head :: us := by
    rw [← hus, toList, toList, split, List.append_assoc]
  have sorted := h.sorted
  rw [hall] at sorted
  obtain ⟨-, after, across⟩ := List.pairwise_append.mp sorted
  exact ⟨us, hall, fun t ht => across t ht _ List.mem_cons_self, (List.pairwise_cons.mp after).1⟩

/-- **The tokens before the place of a token** are those that stand before it. -/
theorem InOrder.before_eq (h : ts.InOrder offset) (split : ts.words = taken ++ left) :
    ts.before (⟨left, ts.stop⟩ : Tokens).head.offset = taken := by
  obtain ⟨us, hall, smaller, larger⟩ := h.cut split
  have none : us.filter (·.offset < (⟨left, ts.stop⟩ : Tokens).head.offset) = [] := by
    rw [List.filter_eq_nil_iff]
    intro t ht
    simpa only [decide_eq_true_eq, Nat.not_lt] using Nat.le_of_lt (larger t ht)
  have every : taken.filter (·.offset < (⟨left, ts.stop⟩ : Tokens).head.offset) = taken := by
    rw [List.filter_eq_self]
    intro t ht
    simpa only [decide_eq_true_eq] using smaller t ht
  rw [before, hall, List.filter_append, every, List.filter_cons_of_neg (by simp), none, List.append_nil]

/-- **The token at the place of a token** is that token. -/
theorem InOrder.at?_eq (h : ts.InOrder offset) (split : ts.words = taken ++ left) :
    ts.at? (⟨left, ts.stop⟩ : Tokens).head.offset = some (⟨left, ts.stop⟩ : Tokens).head := by
  obtain ⟨us, hall, smaller, -⟩ := h.cut split
  have none : taken.find? (·.offset = (⟨left, ts.stop⟩ : Tokens).head.offset) = .none := by
    rw [List.find?_eq_none]
    intro t ht
    simpa only [decide_eq_true_eq] using Nat.ne_of_lt (smaller t ht)
  rw [at?, hall, List.find?_append, none, Option.none_or, List.find?_cons_of_pos (by simp)]

end Place

end Tokens

end Formula
