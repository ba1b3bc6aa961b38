import Formula.Proofs.Compile.Arity
import Formula.Proofs.Symbol.Words
import Formula.Proofs.Token.Slices

/-!
# Safety — nothing is asked for that is not there

A source is evaluated in stages, and each has a way to ask for what is not there: a scan may cut its source
where there is no cut, a call may hand a native fewer values than it reads, and the binomial coefficient may
leave its machine words. None of this happens on any source (`safe_evaluateSource`).

**What it does not say.** How deep the recursions go: that is a matter of the height of the tree.
-/

namespace Formula

/-- **Evaluating a source is safe**, with the builtins and some more variables, and as to what its natives are
handed with any functions at all. -/
structure Safe (source : String) («variables» : List (String × Variable)) : Prop where
  /-- The source is cut where there is a cut. -/
  cuts : (Tokens.ofSource source).Fits source.toList
  /-- No native lacks an argument. -/
  arguments : NoPanic source (SymbolTable.builtins.addVariables «variables»)
  /-- Whatever functions there are, nothing changes when those handed more or fewer values than their arity
  have no value: not what a source compiles to, not a message, and not the value. -/
  arities : ∀ t : SymbolTable,
    Matches Node.Same (compileSource source t.strict).result (compileSource source t).result ∧
      (compileSource source t.strict).messages = (compileSource source t).messages ∧
      evaluateSource source t.strict = evaluateSource source t
  /-- The binomial coefficient stays in its words. -/
  words : ∀ n r : Float,
    Binomial.checkedChoose (Binary64.truncate n) (Binary64.truncate r) = some (Builtin.binomial n r)

/-- **Evaluating a source is safe.** -/
theorem safe_evaluateSource (source : String) («variables» : List (String × Variable)) : Safe source «variables» where
  cuts := fits_ofSource source
  arguments := noPanic_of_definedAtArity (SymbolTable.definedAtArity_builtins _) source
  arities t :=
    have ⟨results, messages⟩ := compileSource_strict source t
    ⟨results, messages, evaluateSource_strict source t⟩
  words n _ := Binomial.checkedChoose_eq (Binomial.fitsWord_truncate n)

end Formula
