import Formula.Proofs.Token.Reading

/-!
# Padding — white space in front of tokens

White space put in front of tokens moves them and changes nothing else: no word is split, joined with the one before
it, or measured anew (`Padding.tokens_text`). What follows a word has a say in where it ends, so that is what has to
be looked at: a word stays one when what follows it begins as before, or with white space (`IsWord.resembles`). The
rest is induction on the reading of the source.

A `Padding` of a source says what is put where: at each byte offset some white space, and none where no token begins.
A token is moved by all that is put in front of it and of the tokens before it (`place`).
-/

namespace Formula

/-! ## Tokens moved -/

section Move

variable (f : Nat → Nat)

/-- A token moved to another offset. -/
def Token.move (t : Token) : Token := { t with offset := f t.offset }

def Stop.move : Stop → Stop
  | .endOfInput offset => .endOfInput (f offset)
  | .invalid offset unread => .invalid (f offset) unread

/-- **All tokens moved**: kinds and texts stay, and so does what cannot be read. -/
def Tokens.move (ts : Tokens) : Tokens := ⟨ts.words.map (·.move f), ts.stop.move f⟩

theorem Stop.token_move (s : Stop) : (s.move f).token = s.token.move f := by
  cases s <;> rfl

theorem Tokens.head_move (ts : Tokens) : (ts.move f).head = ts.head.move f := by
  obtain ⟨words, stop⟩ := ts
  cases words with
  | nil => exact stop.token_move f
  | cons t words => rfl

theorem Tokens.tail_move (ts : Tokens) : (ts.move f).tail = ts.tail.move f := by
  obtain ⟨words, stop⟩ := ts
  cases words <;> rfl

theorem Tokens.toList_move (ts : Tokens) : (ts.move f).toList = ts.toList.map (·.move f) := by
  rw [Tokens.toList, Tokens.toList, List.map_append, List.map_singleton, ← Stop.token_move]
  rfl

end Move

/-! ## What follows a word -/

/-- **Something else that may follow a word**: it begins in the same way, or with white space. -/
def Resembles (rest rest' : List Char) : Prop := rest'.head? = rest.head? ∨ ∃ c ∈ rest'.head?, isBlank c = true

variable {kind : TokenKind} {lexeme rest rest' cs ds : List Char} {c : Char}

/-- What white space does, and the beginning before did, the beginning does now. -/
theorem Resembles.head {P : Char → Prop} (h : Resembles rest rest') (same : ∀ c ∈ rest.head?, P c)
    (blank : ∀ c, isBlank c = true → P c) : ∀ c ∈ rest'.head?, P c := by
  rcases h with equal | ⟨b, first, white⟩
  · rw [equal]
    exact same
  · intro c hc
    obtain rfl := Option.mem_unique hc first
    exact blank _ white

theorem isNamePart_of_isBlank (h : isBlank c = true) : isNamePart c = false := by
  simp only [isBlank, Bool.or_eq_true, beq_iff_eq] at h
  rcases h with ((((rfl | rfl) | rfl) | rfl) | rfl) | rfl <;> rfl

namespace Numeral

variable {p : Phase}

/-- White space ends a literal. -/
theorem move_of_isBlank (h : isBlank c = true) : p.move c = .ends := by
  simp only [isBlank, Bool.or_eq_true, beq_iff_eq] at h
  rcases h with ((((rfl | rfl) | rfl) | rfl) | rfl) | rfl <;> rfl

/-- **A literal that is measured whole** is so before all that it may be followed by. -/
theorem measure_resembles (h : Resembles rest rest') (measured : measure p (cs ++ rest) = some cs.length) :
    measure p (cs ++ rest') = some cs.length := by
  induction cs generalizing p with
  | nil =>
    rw [List.nil_append] at measured ⊢
    obtain ⟨complete, ends⟩ := measure_eq_zero_iff.mp measured
    exact measure_eq_zero_iff.mpr ⟨complete, h.head ends fun _ => move_of_isBlank⟩
  | cons c cs ih =>
    rw [List.cons_append, measure] at measured ⊢
    split at measured
    next q moves =>
      obtain ⟨n, hn, length⟩ := Option.map_eq_some_iff.mp measured
      obtain rfl : n = cs.length := Nat.succ.inj length
      rw [ih hn]
      rfl
    next =>
      split at measured
      · cases measured
      · cases measured
    next => cases measured

end Numeral

/-- **A word stays a word** when something else follows it that it may be followed by. -/
theorem IsWord.resembles (word : IsWord kind lexeme rest) (h : Resembles rest rest') : IsWord kind lexeme rest' := by
  cases word with
  | name begins parts ends => exact .name begins parts (h.head ends fun _ => isNamePart_of_isBlank)
  | numeral some measured =>
    have length := bytes_eq_length_of_measured measured
    refine .numeral some ?_
    rw [length] at measured ⊢
    have pos : lexeme.length ≠ 0 := Nat.ne_of_gt (List.length_pos_iff.mpr some)
    have whole := Numeral.measure_of_pos (measured ▸ pos)
    rw [measured] at whole
    rw [numeralLength, Numeral.measure_resembles h whole]
    rfl
  | symbol symbol => exact .symbol symbol

/-! ## White space put in -/

variable {before : Nat → List Char} {offset offset' : Nat} {ts : Tokens}

/-- **Some characters with others put in**: `before` says what is put in front of each offset. -/
def pad (before : Nat → List Char) : (offset : Nat) → List Char → List Char
  | offset, [] => before offset
  | offset, c :: cs => before offset ++ c :: pad before (offset + c.utf8Size) cs

/-- How many bytes are put in front of all that lies before an offset. -/
def lead (before : Nat → List Char) : Nat → Nat
  | 0 => 0
  | offset + 1 => lead before offset + bytes (before offset)

/-- **Where an offset comes to lie.** -/
def place (before : Nat → List Char) (offset : Nat) : Nat := offset + lead before (offset + 1)

/-- Nothing is put in from one offset on and up to another. -/
def Bare (before : Nat → List Char) (offset offset' : Nat) : Prop := ∀ x, offset ≤ x → x < offset' → before x = []

theorem Bare.mono {x y : Nat} (h : Bare before offset offset') (begins : offset ≤ x) (ends : y ≤ offset') :
    Bare before x y := fun z least most => h z (Nat.le_trans begins least) (Nat.lt_of_lt_of_le most ends)

theorem Bare.lead_eq (h : Bare before offset offset') (le : offset ≤ offset') :
    lead before offset' = lead before offset := by
  induction le with
  | refl => rfl
  | @step y le ih =>
    have here : before y = [] := h y le (Nat.lt_succ_self y)
    rw [lead, here, ih (h.mono (Nat.le_refl _) (Nat.le_succ y)), bytes_nil, Nat.add_zero]

/-- Where nothing is put in, characters stay as they are. -/
theorem Bare.pad_append (h : Bare before offset (offset + bytes cs)) (ds : List Char) :
    pad before offset (cs ++ ds) = cs ++ pad before (offset + bytes cs) ds := by
  induction cs generalizing offset with
  | nil => rfl
  | cons c cs ih =>
    have size := c.utf8Size_pos
    rw [bytes_cons] at h ⊢
    have here : before offset = [] := h offset (Nat.le_refl _) (by omega)
    have more : Bare before (offset + c.utf8Size) (offset + c.utf8Size + bytes cs) := h.mono (by omega) (by omega)
    rw [List.cons_append, pad, here, ih more, ← Nat.add_assoc]
    rfl

/-- A word comes to stand behind what is put in front of it. -/
theorem Bare.pad_word (h : Bare before (offset + 1) (offset + bytes lexeme)) (some : lexeme ≠ []) (rest : List Char) :
    pad before offset (lexeme ++ rest) =
      before offset ++ (lexeme ++ pad before (offset + bytes lexeme) rest) := by
  obtain ⟨c, cs, rfl⟩ := List.exists_cons_of_ne_nil some
  have size := c.utf8Size_pos
  rw [bytes_cons] at h ⊢
  have more : Bare before (offset + c.utf8Size) (offset + c.utf8Size + bytes cs) := h.mono (by omega) (by omega)
  rw [List.cons_append, pad, more.pad_append, ← Nat.add_assoc]
  rfl

/-- Behind white space that nothing is put into, there is what is put in front of the token that follows it. -/
theorem Bare.place_eq {gap : List Char} (h : Bare before offset (offset + bytes gap)) :
    offset + lead before offset + bytes (gap ++ before (offset + bytes gap)) = place before (offset + bytes gap) := by
  rw [place, lead, h.lead_eq (Nat.le_add_right _ _), bytes_append]
  omega

/-- What follows a word begins as before, or with what is put in. -/
theorem resembles_pad (blank : ∀ c ∈ before offset, isBlank c = true) (rest : List Char) :
    Resembles rest (pad before offset rest) := by
  cases here : before offset with
  | nil =>
    left
    cases rest with
    | nil => rw [pad, here]
    | cons c rest => rw [pad, here]; rfl
  | cons b bs =>
    right
    rw [here] at blank
    refine ⟨b, ?_, blank b List.mem_cons_self⟩
    cases rest with
    | nil => rw [pad, here]; rfl
    | cons c rest => rw [pad, here]; rfl

/-- **White space is put in front of tokens only**, from an offset on. -/
structure Pads (before : Nat → List Char) (offset : Nat) (ts : Tokens) : Prop where
  blank : ∀ x, ∀ c ∈ before x, isBlank c = true
  place : ∀ x, offset ≤ x → before x ≠ [] → ∃ t ∈ ts.toList, t.offset = x

/-- Where no token begins, nothing is put in. -/
theorem Pads.bare (h : Pads before offset ts) {x y : Nat} (begins : offset ≤ x)
    (none : ∀ t ∈ ts.toList, t.offset < x ∨ y ≤ t.offset) : Bare before x y := by
  intro z least most
  refine Decidable.byContradiction fun some => ?_
  obtain ⟨t, ht, rfl⟩ := h.place z (Nat.le_trans begins least) some
  have := none t ht
  omega

/-- Behind a word there are the tokens that follow it. -/
theorem Pads.tail {t : Token} (h : Pads before offset (ts.cons t)) (le : offset ≤ offset')
    (behind : t.offset < offset') : Pads before offset' ts where
  blank := h.blank
  place := by
    intro x least some
    obtain ⟨s, hs, here⟩ := h.place x (Nat.le_trans le least) some
    rcases List.mem_cons.mp hs with rfl | hs
    · omega
    · exact ⟨s, hs, here⟩

/-- **What is put in front of the tokens of a reading moves them.** -/
theorem Reading.pad (h : Reading offset cs ts) (pads : Pads before offset ts) :
    Reading (offset + lead before offset) (Formula.pad before offset cs) (ts.move (Formula.place before)) := by
  induction h with
  | @word offset gap lexeme rest kind ts blank word more ih =>
    have pos := word.bytes_pos.1
    have bound := (Tokens.inOrder_ofChars (offset + bytes gap + bytes lexeme) rest).bound
    rw [← more.eq_ofChars] at bound
    -- nothing is put into the white space before the word, and nothing into the word
    have gapBare : Bare before offset (offset + bytes gap) := by
      refine pads.bare (Nat.le_refl _) (List.forall_mem_cons.mpr ⟨.inr (Nat.le_refl _), fun s hs => .inr ?_⟩)
      exact Nat.le_trans (Nat.le_add_right _ _) (bound s hs)
    have wordBare : Bare before (offset + bytes gap + 1) (offset + bytes gap + bytes lexeme) := by
      refine pads.bare (by omega) (List.forall_mem_cons.mpr ⟨.inl (Nat.lt_succ_self _), fun s hs => .inr ?_⟩)
      exact bound s hs
    have tail : Pads before (offset + bytes gap + bytes lexeme) ts :=
      pads.tail (by omega) (Nat.lt_add_of_pos_right pos)
    have some : lexeme ≠ [] := by
      rintro rfl
      exact Nat.lt_irrefl 0 pos
    have next : Reading (offset + lead before offset + bytes (gap ++ before (offset + bytes gap)) + bytes lexeme)
        (Formula.pad before (offset + bytes gap + bytes lexeme) rest) (ts.move (Formula.place before)) := by
      have moved := ih tail
      rw [wordBare.lead_eq (by omega)] at moved
      rw [gapBare.place_eq, Formula.place, Nat.add_right_comm]
      exact moved
    have read := Reading.word (List.forall_mem_append.mpr ⟨blank, pads.blank _⟩)
      (word.resembles (resembles_pad (pads.blank _) rest)) next
    rw [gapBare.place_eq] at read
    rw [gapBare.pad_append, wordBare.pad_word some, ← List.append_assoc]
    exact read
  | @ended offset gap blank =>
    have gapBare : Bare before offset (offset + bytes gap) :=
      pads.bare (Nat.le_refl _) (List.forall_mem_singleton.mpr (.inr (Nat.le_refl _)))
    have whole := gapBare.pad_append []
    rw [List.append_nil, Formula.pad] at whole
    have read := @Reading.ended (offset + lead before offset) (gap ++ before (offset + bytes gap))
      (List.forall_mem_append.mpr ⟨blank, pads.blank _⟩)
    rw [gapBare.place_eq] at read
    rw [whole]
    exact read
  | @stuck offset gap c rest blank unread none =>
    have gapBare : Bare before offset (offset + bytes gap) :=
      pads.bare (Nat.le_refl _) (List.forall_mem_singleton.mpr (.inr (Nat.le_refl _)))
    -- nothing is put in behind the place where nothing can be read
    have behind (y : Nat) : Bare before (offset + bytes gap + 1) y :=
      pads.bare (by omega) (List.forall_mem_singleton.mpr (.inl (Nat.lt_succ_self _)))
    have size := c.utf8Size_pos
    have last : before (offset + bytes gap + bytes (c :: rest)) = [] := by
      refine behind _ _ ?_ (Nat.lt_succ_self _)
      rw [bytes_cons]
      omega
    have left := (behind _).pad_word (List.cons_ne_nil c rest) []
    rw [List.append_nil, Formula.pad, last, List.append_nil] at left
    have read := @Reading.stuck (offset + lead before offset) (gap ++ before (offset + bytes gap)) c rest
      (List.forall_mem_append.mpr ⟨blank, pads.blank _⟩) unread none
    rw [gapBare.place_eq] at read
    rw [gapBare.pad_append, left, ← List.append_assoc]
    exact read

/-! ## Sources -/

/-- **White space to be put in front of the tokens of a source.** -/
structure Padding (source : String) where
  /-- What is put in front of each byte offset. -/
  before : Nat → List Char
  pads : Pads before 0 (Tokens.ofSource source)

namespace Padding

variable {source : String}

/-- **The source with the white space put in.** -/
def text (p : Padding source) : String := String.ofList (pad p.before 0 source.toList)

/-- **The tokens of the text are those of the source**, moved by what is put in front of them. -/
theorem tokens_text (p : Padding source) :
    Tokens.ofSource p.text = (Tokens.ofSource source).move (place p.before) := by
  have read : Reading 0 source.toList (Tokens.ofSource source) := reading_ofChars 0 source.toList
  have padded := read.pad p.pads
  rw [Tokens.ofSource, text, String.toList_ofList]
  exact padded.eq_ofChars.symm

end Padding

end Formula
