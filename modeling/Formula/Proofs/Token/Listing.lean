import Formula.Proofs.Token.Reading
import Formula.Token.Cursor

/-!
# Listings — what a cursor answers along a run of requests

What a cursor hands out is the reading of its source from the front, and the stop's token again and again
behind it, whichever of the two ways it is asked in and in whatever order. What lies **ahead** of a cursor
is the reading of what it has not read; one request takes the first token off it (`hands_token`), and the
rest is induction on the requests.

Two things are remembered on the way, and they are set by different requests. A listing is over once it has
itself handed out the stop's token (`run_none_iff`). The place where nothing can be read is told
when its token is handed out first, and not again (`run_unreadable`).
-/

namespace Formula

/-- What cannot be read, where a scan is stuck. -/
def Stop.unread? : Stop → Option String
  | .endOfInput _ => none
  | .invalid _ unread => some unread

namespace Cursor

/-- **What lies ahead of a cursor**: the reading of what it has not read. -/
def ahead (c : Cursor) : Tokens := Tokens.ofChars c.offset c.unread

/-- **A cursor that is stuck knows where**: nothing but the stop lies ahead, and it remembers its token. -/
def Sound (c : Cursor) : Prop :=
  ∀ t ∈ c.stuck, ∃ offset unread, c.ahead = ⟨[], .invalid offset unread⟩ ∧ t = (Stop.invalid offset unread).token

theorem sound_start (source : String) : (start source).Sound := fun _ h => nomatch h

/-! ## One request -/

/-- **A cursor hands out the first token ahead of it**, and tells what cannot be read when it gets stuck. -/
structure Hands (c : Cursor) (a : Answer Token) : Prop where
  value_eq : a.value = c.ahead.head
  ahead_eq : a.cursor.ahead = c.ahead.tail
  sound : a.cursor.Sound
  finished_eq : a.cursor.finished = c.finished
  unreadable_eq : a.unreadable = if c.stuck = none ∧ c.ahead.words = [] then c.ahead.stop.unread? else none
  stuck_iff : a.cursor.stuck = none ↔ c.stuck = none ∧ a.unreadable = none

variable {c : Cursor} {r : Request}

theorem hands_token (h : c.Sound) : Hands c c.token := by
  obtain ⟨begins, left, stuck, finished⟩ := c
  cases stuck with
  | some t =>
    obtain ⟨offset, unread, place, rfl⟩ := h t rfl
    exact {
      value_eq := by rw [place]; rfl
      ahead_eq := by rw [place]; exact place
      sound := h
      finished_eq := rfl
      unreadable_eq := (if_neg fun h => nomatch h.1).symm
      stuck_iff := iff_of_false (nomatch ·) fun h => nomatch h.1 }
  | none =>
    cases first : step begins left with
    | word t offset rest =>
      have answer : token ⟨begins, left, none, finished⟩ = ⟨t, none, ⟨offset, rest, none, finished⟩⟩ := by
        simp only [token, first]
      have place : ahead ⟨begins, left, none, finished⟩ = (Tokens.ofChars offset rest).cons t :=
        Tokens.ofChars_of_word first
      rw [answer]
      exact {
        value_eq := by rw [place]; rfl
        ahead_eq := by rw [place]; rfl
        sound := fun _ h => nomatch h
        finished_eq := rfl
        unreadable_eq := by rw [place]; exact (if_neg fun h => nomatch h.2).symm
        stuck_iff := iff_of_true rfl ⟨rfl, rfl⟩ }
    | stop s =>
      have place : ahead ⟨begins, left, none, finished⟩ = ⟨[], s⟩ := Tokens.ofChars_of_stop first
      cases s with
      | endOfInput offset =>
        have answer : token ⟨begins, left, none, finished⟩ =
            ⟨(Stop.endOfInput offset).token, none, ⟨offset, [], none, finished⟩⟩ := by
          simp only [token, first]
        rw [answer]
        exact {
          value_eq := by rw [place]; rfl
          ahead_eq := by rw [place]; exact Tokens.ofChars_of_stop rfl
          sound := fun _ h => nomatch h
          finished_eq := rfl
          unreadable_eq := by rw [place]; exact (if_pos ⟨rfl, rfl⟩).symm
          stuck_iff := iff_of_true rfl ⟨rfl, rfl⟩ }
      | invalid offset unread =>
        have answer : token ⟨begins, left, none, finished⟩ =
            ⟨(Stop.invalid offset unread).token, some unread,
              ⟨begins, left, some (Stop.invalid offset unread).token, finished⟩⟩ := by
          simp only [token, first]
        rw [answer]
        exact {
          value_eq := by rw [place]; rfl
          ahead_eq := by rw [place]; exact place
          sound := by
            rintro _ ⟨⟩
            exact ⟨offset, unread, place, rfl⟩
          finished_eq := rfl
          unreadable_eq := by rw [place]; exact (if_pos ⟨rfl, rfl⟩).symm
          stuck_iff := iff_of_false (nomatch ·) fun h => nomatch h.2 }

/-- **How a request is answered**: a listing that is over has nothing more; all else is handed the first
token ahead, and a listing is over with a stop's. -/
inductive Serves (c : Cursor) (r : Request) : Answer (Option Token) → Prop
  | ended (item : r = .item) (finished : c.finished = true) : Serves c r ⟨none, none, c⟩
  | hands {a : Answer Token} (h : Hands c a) {c' : Cursor} (ahead_eq : c'.ahead = a.cursor.ahead)
      (stuck_eq : c'.stuck = a.cursor.stuck)
      (finished_iff : c'.finished = true ↔ c.finished = true ∨ r = .item ∧ isStop a.value.kind = true)
      (listed : r = .item → c.finished = false) : Serves c r ⟨some a.value, a.unreadable, c'⟩

theorem serves_answer (h : c.Sound) (r : Request) : Serves c r (c.answer r) := by
  have hands := hands_token h
  cases r with
  | token =>
    refine .hands hands rfl rfl ?_ (nomatch ·)
    rw [hands.finished_eq]
    exact ⟨.inl, fun h => h.resolve_right fun h => nomatch h.1⟩
  | item =>
    cases finished : c.finished with
    | true =>
      have answer : c.answer .item = ⟨none, none, c⟩ := if_pos finished
      rw [answer]
      exact .ended rfl finished
    | false =>
      have answer : c.answer .item =
          ⟨some c.token.value, c.token.unreadable,
            { c.token.cursor with finished := isStop c.token.value.kind }⟩ := if_neg (Bool.eq_false_iff.mp finished)
      rw [answer]
      refine .hands hands rfl rfl ?_ fun _ => finished
      rw [finished]
      exact ⟨fun h => .inr ⟨rfl, h⟩, fun h => h.elim (nomatch ·) (·.2)⟩

theorem Hands.sound_of_eq {a : Answer Token} (h : Hands c a) {c' : Cursor} (ahead_eq : c'.ahead = a.cursor.ahead)
    (stuck_eq : c'.stuck = a.cursor.stuck) : c'.Sound := by
  unfold Sound
  rw [ahead_eq, stuck_eq]
  exact h.sound

/-! ## The tokens ahead -/

/-- A stop's token is no word. -/
theorem isStop_of_isWord {kind : TokenKind} (h : kind.isWord = true) : isStop kind = false := by
  revert h
  cases kind <;> decide

theorem isStop_stop (stop : Stop) : isStop stop.token.kind = true := by
  cases stop <;> rfl

/-- The first token ahead is the stop's, or a word with the rest of the words behind it. -/
theorem ahead_cases (c : Cursor) :
    c.ahead.words = [] ∧ c.ahead.head = c.ahead.stop.token ∧ c.ahead.tail = c.ahead ∨
    c.ahead.words = c.ahead.head :: c.ahead.tail.words ∧ isStop c.ahead.head.kind = false := by
  have kinds : ∀ t ∈ c.ahead.words, t.kind.isWord = true := (Tokens.inOrder_ofChars c.offset c.unread).words
  generalize c.ahead = ts at kinds ⊢
  obtain ⟨words, stop⟩ := ts
  cases words with
  | nil => exact .inl ⟨rfl, rfl, rfl⟩
  | cons t words => exact .inr ⟨rfl, isStop_of_isWord (kinds t List.mem_cons_self)⟩

/-- The first token ahead is a stop's exactly when it is that of the stop. -/
theorem isStop_head_iff (c : Cursor) : isStop c.ahead.head.kind = true ↔ c.ahead.head = c.ahead.stop.token := by
  constructor
  · intro stops
    rcases c.ahead_cases with ⟨-, head, -⟩ | ⟨-, word⟩
    · exact head
    · rw [word] at stops
      cases stops
  · intro last
    rw [last, isStop_stop]

/-- **What a request tells**: what cannot be read, with the stop's token and while it has not been told, and
nothing with any other. -/
theorem Hands.tells {a : Answer Token} (h : Hands c a) :
    c.stuck = none ∧ a.value = c.ahead.stop.token ∧ a.unreadable = c.ahead.stop.unread? ∨
      a.unreadable = none ∧ (a.cursor.stuck = none ↔ c.stuck = none) ∧
        (c.stuck = none → a.value ≠ c.ahead.stop.token) := by
  have told := h.unreadable_eq
  have stuck := h.stuck_iff
  rw [h.value_eq]
  by_cases now : c.stuck = none ∧ c.ahead.words = []
  · left
    rw [if_pos now] at told
    rcases c.ahead_cases with ⟨-, head, -⟩ | ⟨some, -⟩
    · exact ⟨now.1, head, told⟩
    · rw [now.2] at some
      cases some
  · right
    rw [if_neg now] at told
    refine ⟨told, by simp [stuck, told], fun free last => ?_⟩
    rcases c.ahead_cases with ⟨ended, -, -⟩ | ⟨-, word⟩
    · exact now ⟨free, ended⟩
    · rw [last, isStop_stop] at word
      cases word

/-! ## Runs of requests -/

variable {requests : List Request}

theorem run_cons (c : Cursor) (r : Request) (rs : List Request) :
    c.run (r :: rs) =
      ((c.answer r).value :: ((c.answer r).cursor.run rs).1,
        (c.answer r).unreadable.toList ++ ((c.answer r).cursor.run rs).2) := rfl

/-- Every request is answered. -/
theorem length_run (c : Cursor) (requests : List Request) : (c.run requests).1.length = requests.length := by
  induction requests generalizing c with
  | nil => rfl
  | cons r rs ih => exact congrArg (· + 1) (ih (c.answer r).cursor)

/-- **Along a run the tokens ahead are handed out from the front**, the stop's as often as it is asked for. -/
theorem run_handed (h : c.Sound) {again : Nat} (enough : requests.length ≤ again) :
    (c.run requests).1.filterMap id <+: c.ahead.words ++ List.replicate again c.ahead.stop.token := by
  induction requests generalizing c again with
  | nil => exact List.nil_prefix
  | cons r rs ih =>
    rw [List.length_cons] at enough
    rw [run_cons]
    have served := serves_answer h r
    generalize c.answer r = a at served
    cases served with
    | ended => exact ih h (by omega)
    | @hands a hands c' ahead_eq stuck_eq =>
      change a.value :: (c'.run rs).1.filterMap id <+: _
      have more {n : Nat} := @ih c' (hands.sound_of_eq ahead_eq stuck_eq) n
      rw [ahead_eq, hands.ahead_eq] at more
      rw [hands.value_eq]
      rcases c.ahead_cases with ⟨none, head, tail⟩ | ⟨some, -⟩
      · rw [tail, none] at more
        obtain ⟨n, rfl⟩ : ∃ n, again = n + 1 := ⟨again - 1, by omega⟩
        rw [none, head, List.replicate_succ]
        exact List.cons_prefix_cons.mpr ⟨rfl, more (by omega)⟩
      · rw [some, List.cons_append]
        exact List.cons_prefix_cons.mpr ⟨rfl, more (by omega)⟩

/-- **Asked for tokens alone, a cursor hands out one for each request.** -/
theorem run_tokens (h : c.Sound) {again : Nat} : ∀ {n : Nat}, n ≤ again →
    (c.run (List.replicate n .token)).1 =
      ((c.ahead.words ++ List.replicate again c.ahead.stop.token).take n).map some := by
  intro n
  induction n generalizing c again with
  | zero => exact fun _ => rfl
  | succ n ih =>
    intro enough
    obtain ⟨again, rfl⟩ : ∃ m, again = m + 1 := ⟨again - 1, by omega⟩
    have hands := hands_token h
    have more {m : Nat} (enough : n ≤ m) := ih hands.sound enough
    rw [hands.ahead_eq] at more
    have first : (c.run (List.replicate (n + 1) .token)).1 =
        some c.token.value :: (c.token.cursor.run (List.replicate n .token)).1 := rfl
    rw [first, hands.value_eq]
    rcases c.ahead_cases with ⟨none, head, tail⟩ | ⟨some, -⟩
    · rw [more (Nat.le_of_succ_le_succ enough), tail, none, head]
      rfl
    · rw [more (Nat.le_of_succ_le enough), some]
      rfl

/-- **Asked for the listing alone, a cursor hands out the tokens ahead, each once**, and then nothing. -/
theorem run_items (h : c.Sound) (n : Nat) :
    (c.run (List.replicate n .item)).1.filterMap id = if c.finished then [] else c.ahead.toList.take n := by
  induction n generalizing c with
  | zero => exact (ite_self _).symm
  | succ n ih =>
    rw [List.replicate_succ, run_cons]
    have served := serves_answer h .item
    generalize c.answer .item = a at served
    cases served with
    | ended _ finished =>
      rw [if_pos finished]
      exact (ih h).trans (if_pos finished)
    | @hands a hands c' ahead_eq stuck_eq finished_iff listed =>
      have unfinished : ¬ c.finished = true := Bool.eq_false_iff.mp (listed rfl)
      have more := ih (hands.sound_of_eq ahead_eq stuck_eq)
      rw [ahead_eq, hands.ahead_eq] at more
      rw [hands.value_eq] at finished_iff
      change a.value :: (c'.run (List.replicate n .item)).1.filterMap id = _
      rw [if_neg unfinished, hands.value_eq]
      rcases c.ahead_cases with ⟨none, head, -⟩ | ⟨some, word⟩
      · -- the stop's token is the last one
        have finished : c'.finished = true := finished_iff.mpr (.inr ⟨rfl, by rw [head, isStop_stop]⟩)
        rw [more, if_pos finished, Tokens.toList, none, head, List.nil_append, List.take_succ_cons, List.take_nil]
      · have goes : ¬ c'.finished = true := fun finished =>
          (finished_iff.mp finished).elim unfinished fun h => Bool.eq_false_iff.mp word h.2
        have all : c.ahead.toList = c.ahead.head :: c.ahead.tail.toList := congrArg (· ++ [c.ahead.stop.token]) some
        rw [more, if_neg goes, all, List.take_succ_cons]

/-- **A listing has nothing more exactly when it is over**: from the start, or since it has itself handed out
the stop's token. -/
theorem run_none_iff (h : c.Sound) (i : Nat) :
    (c.run requests).1[i]? = some none ↔
      requests[i]? = some .item ∧
        (c.finished = true ∨
          ∃ j < i, requests[j]? = some .item ∧ (c.run requests).1[j]? = some (some c.ahead.stop.token)) := by
  induction requests generalizing c i with
  | nil => exact iff_of_false (nomatch ·) fun h => nomatch h.1
  | cons r rs ih =>
    rw [run_cons]
    have served := serves_answer h r
    generalize c.answer r = a at served
    cases served with
    | ended item finished =>
      subst item
      cases i with
      | zero => exact iff_of_true rfl ⟨rfl, .inl finished⟩
      | succ i =>
        rw [List.getElem?_cons_succ, List.getElem?_cons_succ, ih h]
        exact and_congr_right fun _ => iff_of_true (.inl finished) (.inl finished)
    | @hands a hands c' ahead_eq stuck_eq finished_iff listed =>
      cases i with
      | zero =>
        refine iff_of_false (nomatch ·) ?_
        rintro ⟨item, finished | ⟨j, before, -⟩⟩
        · rw [listed (Option.some.inj item)] at finished
          cases finished
        · exact Nat.not_lt_zero j before
      | succ i =>
        have stop_eq : c'.ahead.stop = c.ahead.stop := by
          rw [ahead_eq, hands.ahead_eq]
          rfl
        rw [List.getElem?_cons_succ, List.getElem?_cons_succ, ih (hands.sound_of_eq ahead_eq stuck_eq),
          finished_iff, stop_eq, hands.value_eq, isStop_head_iff, Nat.exists_lt_succ_left, or_assoc]
        -- the first of the requests before, and all others
        simp only [List.getElem?_cons_zero, List.getElem?_cons_succ, Option.some.injEq]

/-- **What cannot be read is told once**, when the token of its place is handed out. -/
theorem run_unreadable (h : c.Sound) :
    (c.run requests).2 =
      if c.stuck = none ∧ some c.ahead.stop.token ∈ (c.run requests).1 then c.ahead.stop.unread?.toList else [] := by
  induction requests generalizing c with
  | nil => exact (if_neg fun h => nomatch h.2).symm
  | cons r rs ih =>
    rw [run_cons]
    have served := serves_answer h r
    generalize c.answer r = a at served
    cases served with
    | ended =>
      have member (xs : List (Option Token)) : some c.ahead.stop.token ∈ none :: xs ↔ some c.ahead.stop.token ∈ xs := by
        simp only [List.mem_cons, reduceCtorEq, false_or]
      simp only [member, Option.toList_none, List.nil_append]
      exact ih h
    | @hands a hands c' ahead_eq stuck_eq =>
      have more := ih (hands.sound_of_eq ahead_eq stuck_eq)
      have stop_eq : c'.ahead.stop = c.ahead.stop := by
        rw [ahead_eq, hands.ahead_eq]
        rfl
      rw [stop_eq] at more
      rcases hands.tells with ⟨free, last, told⟩ | ⟨silent, still, other⟩
      · -- what cannot be read is told now, and not again
        have silent : (c'.run rs).2 = [] := by
          rw [more]
          cases unread : c.ahead.stop.unread? with
          | none => exact ite_self _
          | some u =>
            refine if_neg fun h => ?_
            rw [stuck_eq, hands.stuck_iff, told, unread] at h
            cases h.1.2
        have member : some c.ahead.stop.token ∈ some a.value :: (c'.run rs).1 := by
          rw [last]
          exact List.mem_cons_self
        rw [silent, List.append_nil, told, if_pos ⟨free, member⟩]
      · have same : (c'.stuck = none ∧ some c.ahead.stop.token ∈ (c'.run rs).1) ↔
            c.stuck = none ∧ some c.ahead.stop.token ∈ some a.value :: (c'.run rs).1 := by
          rw [stuck_eq, still]
          refine and_congr_right fun free => ?_
          simp [(other free).symm]
        simp only [silent, more, same, Option.toList_none, List.nil_append]

end Cursor

/-! ## Sources -/

/-- **Some tokens are those of a source.** -/
structure Tokens.Lists (ts : Tokens) (source : String) : Prop where
  reading : Reading 0 source.toList ts
  /-- There is no other reading. -/
  unique : ∀ us, Reading 0 source.toList us → us = ts
  /-- Only the last token is a stop's. -/
  words : ∀ t ∈ ts.words, Cursor.isStop t.kind = false
  lengths : ∀ t ∈ ts.words, 0 < t.length ∧ (t.kind = .identifier ∨ t.kind = .number ∨ t.length = 1)
  stop : Cursor.isStop ts.stop.token.kind = true ∧ ts.stop.token.length = 0
  ended : ∀ offset, ts.stop = .endOfInput offset → offset = source.utf8ByteSize
  stuck : ∀ offset unread, ts.stop = .invalid offset unread →
    numeralLength unread.toList = 0 ∧ ∃ before, source.toList = before ++ unread.toList ∧ offset = bytes before

theorem lists_ofSource (source : String) : (Tokens.ofSource source).Lists source := by
  have reading : Reading 0 source.toList (Tokens.ofSource source) := reading_ofChars 0 source.toList
  exact {
    reading
    unique := fun us h => h.eq_ofChars
    words := fun t ht => Cursor.isStop_of_isWord ((Tokens.inOrder_ofSource source).words t ht)
    lengths := by
      intro t ht
      obtain ⟨before, after, -, -, word⟩ := reading.exists_place ht
      have pos := word.bytes_pos
      rw [bytes_toList] at pos
      exact pos
    stop := by
      refine ⟨Cursor.isStop_stop _, ?_⟩
      cases (Tokens.ofSource source).stop <;> rfl
    ended := by
      intro offset ended
      rw [reading.end_offset ended, Nat.zero_add, bytes_toList]
    stuck := by
      intro offset unread stuck
      obtain ⟨none, before, split, place⟩ := reading.exists_unread stuck
      exact ⟨none, before, split, by rw [place, Nat.zero_add]⟩ }

/-- **What a run of requests is answered with**, when the tokens of its source are these: what is handed out,
when a listing has nothing more, and what is told. -/
structure Cursor.Answers (ts : Tokens) (requests : List Cursor.Request) (answers : List (Option Token))
    (told : List String) : Prop where
  /-- Each request is answered. -/
  length_eq : answers.length = requests.length
  /-- The tokens from the front, and the stop's again and again. -/
  handed : ∃ again, answers.filterMap id <+: ts.words ++ List.replicate again ts.stop.token
  /-- A listing has nothing more once it has itself handed out the stop's token. -/
  over_iff : ∀ i : Nat, answers[i]? = some none ↔ requests[i]? = some .item ∧
    ∃ j < i, requests[j]? = some .item ∧ answers[j]? = some (some ts.stop.token)
  told_eq : told = if some ts.stop.token ∈ answers then ts.stop.unread?.toList else []

/-- **The tokens of a source are its one reading, and a cursor answers every run of requests with them.** -/
theorem answers_run_start (source : String) :
    ∃ ts : Tokens, ts.Lists source ∧ ∀ requests : List Cursor.Request,
      Cursor.Answers ts requests ((Cursor.start source).run requests).1 ((Cursor.start source).run requests).2 := by
  refine ⟨Tokens.ofSource source, lists_ofSource source, fun requests => ?_⟩
  have sound := Cursor.sound_start source
  have ahead : (Cursor.start source).ahead = Tokens.ofSource source := rfl
  have free : (Cursor.start source).stuck = none := rfl
  exact {
    length_eq := Cursor.length_run _ requests
    handed := ⟨requests.length, ahead ▸ Cursor.run_handed sound (Nat.le_refl _)⟩
    over_iff := by
      intro i
      have begun : (Cursor.start source).finished = true ↔ False := iff_of_false (nomatch ·) id
      rw [Cursor.run_none_iff sound, ahead, begun, false_or]
    told_eq := by
      rw [Cursor.run_unreadable sound, ahead]
      simp only [free, true_and] }

end Formula
