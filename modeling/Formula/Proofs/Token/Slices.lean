import Formula.Proofs.Token.Reading

/-!
# Slices — what a scan cuts out of its source fits it

A slice that does not fit a source has no text: `dropBytes` and `takeBytes` fail past the end and inside a
character. The cuts between the tokens of a reading are never of that kind, since each falls between two
parts of the source (`dropBytes_append`, `takeBytes_append`).

A scan cuts at three places: around the text of a word, at the beginning of a literal, from where it is
measured and moved past, and at the place where nothing can be read. `fits_ofSource` says of all three that
they fit.
-/

namespace Formula

variable {before after cs : List Char}

theorem dropBytes_cons (c : Char) (cs : List Char) (n : Nat) :
    dropBytes (c :: cs) (c.utf8Size + n) = dropBytes cs n := by
  obtain ⟨m, hm⟩ : ∃ m, c.utf8Size + n = m + 1 := ⟨c.utf8Size + n - 1, by have := c.utf8Size_pos; omega⟩
  rw [hm, dropBytes, if_pos (by omega), ← hm, Nat.add_sub_cancel_left]

/-- **A cut behind a part of a source** leaves what comes after it. -/
theorem dropBytes_append (before after : List Char) : dropBytes (before ++ after) (bytes before) = some after := by
  induction before with
  | nil => rw [List.nil_append, bytes_nil, dropBytes]
  | cons c before ih => rw [List.cons_append, bytes_cons, dropBytes_cons, ih]

theorem takeBytes_cons (c : Char) (cs : List Char) (n : Nat) :
    takeBytes (c :: cs) (c.utf8Size + n) = (takeBytes cs n).map (c :: ·) := by
  obtain ⟨m, hm⟩ : ∃ m, c.utf8Size + n = m + 1 := ⟨c.utf8Size + n - 1, by have := c.utf8Size_pos; omega⟩
  rw [hm, takeBytes, if_pos (by omega), ← hm, Nat.add_sub_cancel_left]

/-- **A cut behind a part of a source** keeps the part. -/
theorem takeBytes_append (before after : List Char) : takeBytes (before ++ after) (bytes before) = some before := by
  induction before with
  | nil => rw [List.nil_append, bytes_nil, takeBytes]
  | cons c before ih => rw [List.cons_append, bytes_cons, takeBytes_cons, ih, Option.map_some]

/-- **The text that a span covers**, none when the span does not fit. -/
def Span.slice? (s : Span) (source : List Char) : Option (List Char) :=
  (dropBytes source s.offset).bind (takeBytes · s.length)

theorem Span.sliceChars_eq (s : Span) (source : List Char) : s.sliceChars source = (s.slice? source).getD [] := rfl

/-- A numeral is as long as it is measured. -/
theorem IsWord.measured {lexeme rest : List Char} (h : IsWord .number lexeme rest) :
    numeralLength (lexeme ++ rest) = bytes lexeme := by
  cases h with
  | numeral _ measured => exact measured
  | symbol symbol =>
    unfold symbolKind? at symbol
    split at symbol <;> cases symbol

/-- **Every cut of a scan fits the source.** -/
structure Tokens.Fits (ts : Tokens) (source : List Char) : Prop where
  /-- Around the text of a word. -/
  lexeme : ∀ t ∈ ts.words, t.span.slice? source = some t.lexeme.toList
  /-- From where a literal is measured, and where the scan stands when it has moved on, past the character
  that it has read by then, by what was measured. -/
  measured : ∀ t ∈ ts.words, t.kind = .number → ∃ rest left,
    dropBytes source t.offset = some rest ∧ t.length = numeralLength rest ∧ 0 < numeralLength rest ∧
    dropBytes source (t.offset + 1 + (numeralLength rest - 1)) = some left
  /-- Where nothing can be read. -/
  unread : ∀ offset unread, ts.stop = .invalid offset unread → dropBytes source offset = some unread.toList

theorem fits_ofSource (source : String) : (Tokens.ofSource source).Fits source.toList := by
  have reading : Reading 0 source.toList (Tokens.ofSource source) := reading_ofChars 0 source.toList
  exact {
    lexeme := by
      intro t ht
      obtain ⟨before, after, split, place, -⟩ := reading.exists_place ht
      rw [Nat.zero_add] at place
      rw [Span.slice?, split, Token.span, place, dropBytes_append, Option.bind_some, Token.length, ← bytes_toList,
        takeBytes_append]
    measured := by
      intro t ht number
      obtain ⟨before, after, split, place, word⟩ := reading.exists_place ht
      rw [Nat.zero_add] at place
      rw [number] at word
      have length : numeralLength (t.lexeme.toList ++ after) = t.length := by
        rw [Token.length, ← bytes_toList]
        exact word.measured
      have pos := word.bytes_pos.1
      rw [bytes_toList, ← Token.length, ← length] at pos
      have behind : t.offset + 1 + (numeralLength (t.lexeme.toList ++ after) - 1) =
          bytes (before ++ t.lexeme.toList) := by
        rw [bytes_append, bytes_toList, ← Token.length, ← length, place]
        omega
      refine ⟨t.lexeme.toList ++ after, after, ?_, length.symm, pos, ?_⟩
      · rw [split, place, dropBytes_append]
      · rw [behind, split, ← List.append_assoc, dropBytes_append]
    unread := by
      intro offset unread stuck
      obtain ⟨-, before, split, place⟩ := reading.exists_unread stuck
      rw [split, place, Nat.zero_add, dropBytes_append] }

end Formula
