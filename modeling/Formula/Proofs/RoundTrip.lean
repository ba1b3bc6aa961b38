import Formula.Proofs.Binary64.Negation
import Formula.Proofs.Compile.Run
import Formula.Proofs.Decimal.Shortest
import Formula.Proofs.Decimal.Significant
import Formula.Proofs.Grammar.Spelling

/-!
# Round trips — doubles written and evaluated again

The text of a finite double is a sign and a numeral, so as a source it is the numeral or one minus on it, and it
folds to the double that was written, on every table (`spells_signed`). That holds of the shortest text
(`evaluateSource_shortestText`) and of a text with seventeen significant digits or more, wherever there is one
(`evaluateSource_significantText`).

**Where there is no text.** A layout with more than `maxPlaces` places after the point is not written, so with
more than 65536 digits no finite double has a text, not even one that a single digit writes
(`significantText_one_missing`). With 65532 digits and fewer every one has.
-/

namespace Formula

open Binary64 Decimal

variable {x : Float} {cs : List Char} {source : String} {negative : Bool} {rank p : Nat} {t : SymbolTable}

/-! ## Signed numerals -/

/-- **An expression that folds to a number** on every table. -/
def Expr.FoldsTo (e : Expr) (x : Float) : Prop := ∀ t, e.compile t = .ok (.number x)

theorem Expr.FoldsTo.negation {e : Expr} (h : e.FoldsTo x) (span : Span) : (Expr.unary .minus e span).FoldsTo (-x) := by
  intro t
  rw [Expr.compile, h t]
  rfl

theorem literalValue_of_denotes (h : Denotes cs rank) :
    Parser.literalValue (String.ofList cs) = ofRank false rank := by
  simp only [Parser.literalValue, String.toList_ofList, h.read]

/-- **A sign and a numeral** spell the double that they denote. -/
theorem spells_signed (h : Denotes cs rank) (finite : view x = .finite negative rank) :
    Spells .unary 2 (signText negative ++ cs) fun e => e.FoldsTo x := by
  have unsigned : Spells .unary 1 cs fun e => e.FoldsTo (ofRank false rank) := by
    refine (spells_unary (spells_numeral h.isNumeral)).mono (Nat.le_refl _) ?_
    rintro _ ⟨span, rfl⟩ t
    rw [literalValue_of_denotes h]
    rfl
  have here := ofRank_of_view finite
  cases negative with
  | false =>
    rw [← here]
    exact unsigned.mono (by decide) fun _ => id
  | true =>
    refine (spells_negation unsigned).mono (Nat.le_refl _) ?_
    rintro _ ⟨operand, span, rfl, folds⟩
    rw [← here, ← neg_ofRank (Nat.le_of_lt (view_eq_finite finite).1)]
    exact folds.negation span

/-! ## Texts of doubles -/

theorem evaluateSource_of_spells (h : Spells .expression 2 source.toList fun e => e.FoldsTo x) :
    (evaluateSource source t).result = some x := by
  obtain ⟨root, read, folds⟩ := h.read (by decide)
  have compiled : (compileSource source t).result = .ok (.number x) := by rw [compileSource_of_ok read (folds t)]
  rw [evaluateSource_of_ok compiled]
  simp only [Node.valueIn, Node.eval]

/-- The shortest text of a finite double spells the double. -/
theorem spells_shortestText (finite : view x = .finite negative rank) :
    Spells .unary 2 (shortestText x).toList fun e => e.FoldsTo x := by
  have text : (shortestText x).toList = signText negative ++ shortestDigits rank := by
    simp only [shortestText, finite, String.toList_ofList]
  rw [text]
  exact spells_signed (denotes_shortestDigits (view_eq_finite finite).1) finite

/-- **The shortest text of a finite double evaluates to the double.** -/
theorem evaluateSource_shortestText (finite : view x = .finite negative rank) :
    (evaluateSource (shortestText x) t).result = some x :=
  evaluateSource_of_spells (spells_expression (spells_shortestText finite))

/-- **A finite double with seventeen digits or more**: whatever is written evaluates to the double on every table,
and something is written exactly where the layout has room, as it does with 65532 digits and fewer. -/
theorem evaluateSource_significantText (finite : view x = .finite negative rank) (seventeen : 17 ≤ p) :
    (∀ text ∈ significantText? x p, ∀ t, (evaluateSource text t).result = some x) ∧
      ((significantText? x p).isSome ↔
        p - 1 ≤ maxPlaces ∧ placesAsked p (significantExponent p rank) ≤ maxPlaces) ∧
      (p + 3 ≤ maxPlaces → (significantText? x p).isSome) := by
  have digits : max p 1 = p := Nat.max_eq_left (by omega)
  have written : significantText? x p = if layoutFits p rank then some (significantText x p) else none := by
    simp only [significantText?, finite, digits]
  have text_eq : (significantText x p).toList = signText negative ++ significantDigits p rank := by
    simp only [significantText, finite, digits, String.toList_ofList]
  have spells : Spells .unary 2 (significantText x p).toList fun e => e.FoldsTo x := by
    rw [text_eq]
    exact spells_signed (denotes_significantDigits seventeen (view_eq_finite finite).1) finite
  rw [written]
  refine ⟨?_, ?_, ?_⟩
  · intro text here t
    split at here
    next => exact Option.some.inj here ▸ evaluateSource_of_spells (spells_expression spells)
    next => cases here
  · simp [layoutFits]
  · intro few
    simp [layoutFits_of_le few]

/-- The least double above zero, with seventeen digits, and the text that is written. -/
theorem evaluateSource_significantText_least :
    significantText? (Float.ofBits 1) 17 = some "4.9406564584124654e-324" ∧
      ∀ t, (evaluateSource "4.9406564584124654e-324" t).result = some (Float.ofBits 1) := by
  have written : significantText? (Float.ofBits 1) 17 = some "4.9406564584124654e-324" := by decide +kernel
  have finite : view (Float.ofBits 1) = .finite false 1 := by decide +kernel
  exact ⟨written, (evaluateSource_significantText finite (by decide)).1 _ written⟩

/-- **With 65537 digits there is no text** of the double one, and so none that evaluates to it. -/
theorem significantText_one_missing :
    view 1 = .finite false (1023 * 2 ^ 52) ∧ 17 ≤ 65537 ∧
      ¬ ∃ text ∈ significantText? 1 65537, ∀ t, (evaluateSource text t).result = some 1 := by
  have finite : view 1 = .finite false (1023 * 2 ^ 52) := by decide +kernel
  have missing : significantText? 1 65537 = none := by simp [significantText?, finite, layoutFits, maxPlaces]
  refine ⟨finite, by decide, ?_⟩
  rintro ⟨text, here, -⟩
  rw [missing] at here
  cases here

end Formula
