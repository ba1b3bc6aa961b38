import Mathlib.Data.List.Forall2
import Formula.CommandLine.Run
import Formula.Proofs.Grammar.Spelling
import Formula.Proofs.Parse.Recording

/-!
# Bindings — the variables that a request makes

What may be bound is told by a rule of its own, and what a formula can name by a scan. The two agree on every text:
what is accepted as a name of a binding scans to that name and nothing else (`tokens_of_isName`), and a text that
scans to one name is accepted (`acceptedAsName_of_isOneName`). So every variable of a request can be reached, and
nothing that could be reached is refused.

The table of a request is the builtins with one binding after the other made in it. What one binding does is known:
its name has its value then, and there is a warning when the name had one before. The rest is induction on the
bindings, made as **steps**, all variables and then all constants: a name has the value of the last step for it
(`findVariable?_makeAll`), and the steps that are warned about are those whose name was known
(`warnings_makeAll`). `bindings_hold` puts both together for the texts that a request is read from.

**What it does not say.** How the texts are found among the arguments, and where the warnings are written.
-/

namespace Formula.CommandLine

variable {text name : String} {cs : List Char} {c : Char}

/-! ## Names -/

theorem isNamePart_of_isNameStart (h : isNameStart c = true) : isNamePart c = true := by
  simp only [isNameStart, isNamePart, Char.isAlphanum, Bool.or_eq_true] at h ⊢
  exact h.imp_left .inl

/-- **What a binding takes for a name is what a name is.** -/
theorem isName_iff : isName cs = true ↔ IsName cs := by
  cases cs with
  | nil => exact iff_of_false nofun fun h => nomatch h.begins
  | cons c cs =>
    rw [isName, Bool.and_eq_true, List.all_eq_true]
    constructor
    · rintro ⟨begins, parts⟩
      exact ⟨⟨c, rfl, begins⟩, List.forall_mem_cons.mpr ⟨isNamePart_of_isNameStart begins, parts⟩⟩
    · rintro ⟨⟨d, first, begins⟩, parts⟩
      obtain rfl := Option.some.inj first
      exact ⟨begins, (List.forall_mem_cons.mp parts).2⟩

/-- **A name by itself is scanned as that name.** -/
theorem tokens_of_isName (h : isName text.toList = true) :
    Tokens.ofSource text = ⟨[⟨.identifier, 0, text⟩], .endOfInput text.utf8ByteSize⟩ := by
  have scanned := scans_word (fun _ => (isName_iff.mp h).isWord) 0 [] delimits_nil
  have ended : Tokens.ofChars (0 + bytes text.toList) [] = ⟨[], .endOfInput text.utf8ByteSize⟩ := by
    rw [Nat.zero_add, bytes_toList]
    exact Tokens.ofChars_of_stop rfl
  rw [List.append_nil, ended, String.ofList_toList] at scanned
  exact scanned

/-- **A text is one name**: a scan finds one word in it, a name that is all of the text. -/
def IsOneName (text : String) : Prop :=
  ∃ t, (Tokens.ofSource text).words = [t] ∧ t.kind = .identifier ∧ t.span = ⟨0, text.utf8ByteSize⟩

/-- **The two rules agree.** -/
theorem isOneName_iff : IsOneName text ↔ isName text.toList = true := by
  constructor
  · rintro ⟨t, words, kind, span⟩
    obtain ⟨offset, length⟩ := Span.mk.inj span
    have mem : t ∈ (Tokens.ofSource text).words := by rw [words]; exact List.mem_cons_self
    obtain ⟨before, after, split, place, word⟩ := (reading_ofChars 0 text.toList).exists_place mem
    -- nothing is left of the text before the word or behind it
    have bytes_eq : bytes before + (bytes t.lexeme.toList + bytes after) = bytes t.lexeme.toList := by
      rw [← bytes_append, ← bytes_append, ← split, bytes_toList, bytes_toList]
      exact length.symm
    have empty {ds : List Char} (none : bytes ds = 0) : ds = [] :=
      List.length_eq_zero_iff.mp (Nat.le_zero.mp (none ▸ length_le_bytes ds))
    obtain rfl : before = [] := empty (by omega)
    obtain rfl : after = [] := empty (by rw [bytes_nil] at bytes_eq; omega)
    rw [List.nil_append, List.append_nil] at split
    rw [split]
    rw [kind] at word
    generalize t.lexeme.toList = lexeme at word
    cases word with
    | name begins parts _ =>
      rw [isName, Bool.and_eq_true, List.all_eq_true]
      exact ⟨begins, parts⟩
    | symbol symbol =>
      unfold symbolKind? at symbol
      split at symbol <;> cases symbol
  · intro h
    exact ⟨⟨.identifier, 0, text⟩, by rw [tokens_of_isName h], rfl, rfl⟩

/-! ## Reading a binding -/

/-- What is bound has a name that a formula can use. -/
theorem isName_of_read {b : Binding} (h : Binding.read text = .ok b) : isName b.name.toList = true := by
  simp only [Binding.read] at h
  split at h
  next => cases h
  next =>
    split at h
    next valid =>
      split at h
      next =>
        obtain rfl := Except.ok.inj h
        rw [String.toList_ofList]
        exact valid
      next => cases h
    next => cases h

/-- A name has no white space and no equals sign. -/
theorem plain_of_isNamePart (h : isNamePart c = true) : isSpace c = false ∧ c ≠ '=' := by
  have range : 48 ≤ c.toNat ∧ c.toNat ≤ 57 ∨ 65 ≤ c.toNat ∧ c.toNat ≤ 122 := by
    rcases Bool.or_eq_true_iff.mp h with alphanum | underscore
    · rcases Bool.or_eq_true_iff.mp alphanum with alpha | digit
      · right
        rcases Bool.or_eq_true_iff.mp alpha with upper | lower
        · obtain ⟨least, most⟩ := of_decide_eq_true upper
          exact ⟨UInt32.le_iff_toNat_le.mp least, Nat.le_trans (UInt32.le_iff_toNat_le.mp most) (by decide)⟩
        · obtain ⟨least, most⟩ := Bool.and_eq_true_iff.mp lower
          exact ⟨Nat.le_trans (by decide) (UInt32.le_iff_toNat_le.mp (of_decide_eq_true least)),
            UInt32.le_iff_toNat_le.mp (of_decide_eq_true most)⟩
      · left
        obtain ⟨least, most⟩ := Bool.and_eq_true_iff.mp digit
        exact ⟨UInt32.le_iff_toNat_le.mp (of_decide_eq_true least), UInt32.le_iff_toNat_le.mp (of_decide_eq_true most)⟩
    · obtain rfl := beq_iff_eq.mp underscore
      decide
  constructor
  · simp only [isSpace, Bool.or_eq_false_iff, Bool.and_eq_false_iff, decide_eq_false_iff_not, beq_eq_false_iff_ne]
    omega
  · rintro rfl
    revert range
    decide

theorem dropWhile_isSpace (h : ∀ d ∈ cs, isSpace d = false) : cs.dropWhile isSpace = cs := by
  cases cs with
  | nil => rfl
  | cons d ds => exact List.dropWhile_cons_of_neg (Bool.eq_false_iff.mp (h d List.mem_cons_self))

theorem trim_of_plain (h : ∀ d ∈ cs, isSpace d = false) : trim cs = cs := by
  rw [trim, dropWhile_isSpace h, dropWhile_isSpace fun d hd => h d (List.mem_reverse.mp hd), List.reverse_reverse]

/-- **A text is accepted as a name**: with any value behind it, what becomes of the binding depends on the value. -/
def AcceptedAsName (name : String) : Prop :=
  ∀ value : String, Binding.read (name ++ "=" ++ value) =
    match Decimal.readFloat (trim value.toList) with
    | .ok x => .ok ⟨name, x⟩
    | .error cause => .error (.badValue value cause)

/-- **What is one name is accepted as a name.** -/
theorem acceptedAsName_of_isOneName (h : IsOneName name) : AcceptedAsName name := by
  intro value
  have valid := isOneName_iff.mp h
  have parts := (isName_iff.mp valid).parts
  have written : (name ++ "=" ++ value).toList = name.toList ++ '=' :: value.toList := by simp
  have unparted : ∀ d ∈ name.toList, (d != '=') = true := fun d hd =>
    bne_iff_ne.mpr (plain_of_isNamePart (parts d hd)).2
  have before : (name.toList ++ '=' :: value.toList).takeWhile (· != '=') = name.toList := by
    rw [List.takeWhile_append_of_pos unparted, List.takeWhile_cons_of_neg (by decide), List.append_nil]
  have behind : (name.toList ++ '=' :: value.toList).dropWhile (· != '=') = '=' :: value.toList := by
    rw [List.dropWhile_append_of_pos unparted, List.dropWhile_cons_of_neg (by decide)]
  have trimmed : trim name.toList = name.toList := trim_of_plain fun d hd => (plain_of_isNamePart (parts d hd)).1
  cases read : Decimal.readFloat (trim value.toList) <;>
    simp only [Binding.read, written, before, behind, trimmed, valid, if_true, String.ofList_toList, read]

/-! ## Making bindings -/

/-- **The steps of a request**: its bindings in the order in which they are made, each with whether it is made a
constant. -/
def Request.steps (r : Request) : List (Binding × Bool) := r.variables.map (·, false) ++ r.constants.map (·, true)

/-- A table with its warnings after some steps. -/
def makeAll (s : SymbolTable × List Diagnostic) (steps : List (Binding × Bool)) : SymbolTable × List Diagnostic :=
  steps.foldl (fun s step => bind step.2 s step.1) s

theorem tableOf_eq_makeAll (r : Request) : tableOf r = makeAll (SymbolTable.builtins, []) r.steps := by
  rw [makeAll, Request.steps, List.foldl_append, List.foldl_map, List.foldl_map, tableOf]

/-- **The last value that some bindings give to a name.** -/
def lastValue? (bs : List Binding) (name : String) : Option Float :=
  (bs.reverse.find? (·.name == name)).map (·.value)

/-- The variable that the last step for a name makes. -/
def lastMade? (steps : List (Binding × Bool)) (name : String) : Option Variable :=
  (steps.reverse.find? (·.1.name == name)).map fun step => ⟨step.1.value, step.2⟩

/-- The constants come last. -/
theorem lastMade?_steps (r : Request) (name : String) :
    lastMade? r.steps name =
      ((lastValue? r.constants name).map (⟨·, true⟩)).or ((lastValue? r.variables name).map (⟨·, false⟩)) := by
  simp only [lastMade?, lastValue?, Request.steps, List.reverse_append, List.find?_append, ← List.map_reverse,
    List.find?_map, Option.map_or, Option.map_map]
  rfl

/-- **One step** gives its name a variable, and leaves every other name alone. -/
theorem findVariable?_bind (constant : Bool) (s : SymbolTable × List Diagnostic) (b : Binding) (name : String) :
    (bind constant s b).1.findVariable? name =
      if b.name = name then some ⟨b.value, constant⟩ else s.1.findVariable? name :=
  Dictionary.find?_put ..

variable {s : SymbolTable × List Diagnostic} {steps : List (Binding × Bool)}

/-- **After some steps** a name has what the last step for it has made, or what it had before them. -/
theorem findVariable?_makeAll :
    (makeAll s steps).1.findVariable? name = (lastMade? steps name).or (s.1.findVariable? name) := by
  induction steps generalizing s with
  | nil => rfl
  | cons step steps ih =>
    have rest : makeAll s (step :: steps) = makeAll (bind step.2 s step.1) steps := rfl
    rw [rest, ih, findVariable?_bind, lastMade?, lastMade?, List.reverse_cons, List.find?_append, Option.map_or,
      Option.or_assoc]
    by_cases same : step.1.name = name <;> simp [same]

/-! ## Warnings -/

/-- **The bindings that take the place of a variable**, when some names are taken from the start: those of a name
that is taken, or that a binding before them has. -/
def replacements (taken : String → Bool) (bs : List Binding) : List Binding :=
  (bs.zipIdx.filter fun (b, i) => taken b.name || (bs.take i).any (·.name == b.name)).map (·.1)

theorem replacements_cons (taken : String → Bool) (b : Binding) (bs : List Binding) :
    replacements taken (b :: bs) =
      (if taken b.name then [b] else []) ++ replacements (fun name => taken name || b.name == name) bs := by
  have later : (bs.zipIdx 1).filter (fun p => taken p.1.name || ((b :: bs).take p.2).any (·.name == p.1.name)) =
      (bs.zipIdx.filter fun p => (taken p.1.name || b.name == p.1.name) ||
        (bs.take p.2).any (·.name == p.1.name)).map fun p => (p.1, p.2 + 1) := by
    rw [List.zipIdx_succ, List.filter_map]
    simp [Function.comp_def, Bool.or_assoc]
  rw [replacements, List.zipIdx_cons, List.filter_cons, later]
  cases first : taken b.name <;> simp [replacements, first]

/-- **A step warns** when its name has a variable. -/
theorem warnings_bind (constant : Bool) (s : SymbolTable × List Diagnostic) (b : Binding) :
    (bind constant s b).2 =
      s.2 ++ (if (s.1.findVariable? b.name).isSome then [b] else []).map fun b => Diagnostic.replaced b.name := by
  unfold bind
  cases (s.1.findVariable? b.name).isSome <;> rfl

/-- **Some steps warn** of those that take the place of a variable. -/
theorem warnings_makeAll :
    (makeAll s steps).2 =
      s.2 ++ (replacements (fun name => (s.1.findVariable? name).isSome) (steps.map (·.1))).map
        fun b => Diagnostic.replaced b.name := by
  induction steps generalizing s with
  | nil => exact (List.append_nil _).symm
  | cons step steps ih =>
    have rest : makeAll s (step :: steps) = makeAll (bind step.2 s step.1) steps := rfl
    have known : (fun name => ((bind step.2 s step.1).1.findVariable? name).isSome) =
        fun name => (s.1.findVariable? name).isSome || step.1.name == name := by
      funext name
      rw [findVariable?_bind]
      by_cases same : step.1.name = name <;> simp [same]
    rw [rest, ih, warnings_bind, known, List.map_cons, replacements_cons, List.map_append, List.append_assoc]

/-- A name has a value in a dictionary when there is an entry under it. -/
theorem isSome_findIn {α : Type} (name : String) (es : List (String × α)) :
    (Dictionary.findIn name es).isSome = es.any (·.1 == name) := by
  induction es with
  | nil => rfl
  | cons e es ih =>
    rw [Dictionary.findIn, List.any_cons, ← ih]
    by_cases same : e.1 = name <;> simp [same]

/-- Whether a builtin constant has a name. -/
def isBuiltinConstant (name : String) : Bool := Builtin.constants.any (·.1 == name)

/-- **The variables of the builtins are their constants.** -/
theorem isSome_findVariable?_builtins (name : String) :
    (SymbolTable.builtins.findVariable? name).isSome = isBuiltinConstant name := by
  have entries : SymbolTable.builtins.variables.entries = Builtin.constants.map fun c => (c.1, ⟨c.2, true⟩) := rfl
  rw [SymbolTable.findVariable?, Dictionary.find?, isSome_findIn, entries, List.any_map]
  rfl

/-! ## Formulas that are one name -/

/-- **A source that is one name is read as that name**, and nothing is said of it. -/
theorem read_of_isName (h : isName text.toList = true) :
    ∃ span, (Ast.read text).result = .ok ⟨text, .identifier text span⟩ ∧ (Ast.read text).messages = [] := by
  have spelled := spells_expression (spells_unary (spells_name (isName_iff.mp h)))
  obtain ⟨root, read, span, rfl⟩ := spelled.read (by decide)
  rw [String.ofList_toList] at read
  exact ⟨span, read, messages_of_read_ok read⟩

/-- **It compiles to what its variable is**, and has the variable's value. -/
theorem compile_of_isName (h : isName text.toList = true) {t : SymbolTable} {v : Variable}
    (found : t.findVariable? text = some v) :
    compileSource text t = ⟨.ok (if v.constant then .number v.value else .cell text), []⟩ ∧
      evaluateSource text t = ⟨some v.value, []⟩ := by
  obtain ⟨span, read, silent⟩ := read_of_isName h
  have resolved : (Expr.identifier text span).compile t = .ok (if v.constant then .number v.value else .cell text) := by
    rw [Expr.compile, resolve, found]
  have compiled := compileSource_of_ok read resolved
  rw [silent] at compiled
  refine ⟨compiled, ?_⟩
  have value : (if v.constant then Node.number v.value else .cell text).valueIn t = some v.value := by
    rw [Node.valueIn]
    split
    · rw [Node.eval]
    · rw [Node.eval, SymbolTable.value, found]
  rw [evaluateSource_of_ok (by rw [compiled]), value, compiled]

/-! ## Requests -/

/-- The bindings of a request, in the order in which they are made. -/
def Request.bindings (r : Request) : List Binding := r.variables ++ r.constants

/-- **What becomes of the bindings of a request** in the table that it makes of the builtins. -/
structure Request.Bound (r : Request) : Prop where
  /-- A name that is bound is a source of one word, and then the end. -/
  scans : ∀ b ∈ r.bindings, (Tokens.ofSource b.name).toList =
    [⟨.identifier, 0, b.name⟩, ⟨.endOfInput, b.name.utf8ByteSize, ""⟩]
  /-- A name that is bound as a constant is compiled to the value that the last such binding has given it. -/
  folds : ∀ b ∈ r.constants, ∃ x, lastValue? r.constants b.name = some x ∧
    compileSource b.name (tableOf r).1 = ⟨.ok (.number x), []⟩ ∧
    evaluateSource b.name (tableOf r).1 = ⟨some x, []⟩
  /-- Any other name is compiled to a cell, which has the value of the last binding. -/
  reads : ∀ b ∈ r.variables, lastValue? r.constants b.name = none → ∃ x, lastValue? r.variables b.name = some x ∧
    compileSource b.name (tableOf r).1 = ⟨.ok (.cell b.name), []⟩ ∧
    evaluateSource b.name (tableOf r).1 = ⟨some x, []⟩
  /-- There is one warning for each binding whose name is that of a builtin constant or of a binding before it. -/
  warns : (tableOf r).2.map (fun d => (d.severity, d.message)) =
    (replacements isBuiltinConstant r.bindings).map fun b =>
      (.warn, s!"Binding '{b.name}' replaces an existing variable")

/-- A name that some bindings have is given a last value by them. -/
theorem exists_lastValue? {bs : List Binding} {b : Binding} (h : b ∈ bs) : ∃ x, lastValue? bs b.name = some x := by
  have some : (bs.reverse.find? (·.name == b.name)).isSome = true :=
    List.find?_isSome.mpr ⟨b, List.mem_reverse.mpr h, beq_self_eq_true _⟩
  obtain ⟨last, found⟩ := Option.isSome_iff_exists.mp some
  exact ⟨last.value, by rw [lastValue?, found, Option.map_some]⟩

/-- What a name has in the table of a request. -/
theorem findVariable?_tableOf (r : Request) (name : String) :
    (tableOf r).1.findVariable? name =
      (((lastValue? r.constants name).map (⟨·, true⟩)).or ((lastValue? r.variables name).map (⟨·, false⟩))).or
        (SymbolTable.builtins.findVariable? name) := by
  rw [tableOf_eq_makeAll, findVariable?_makeAll, lastMade?_steps]

/-- **Where all names are names of a formula, they are bound.** -/
theorem bound_of_isName {r : Request} (names : ∀ b ∈ r.bindings, isName b.name.toList = true) : r.Bound where
  scans := by
    intro b hb
    rw [tokens_of_isName (names b hb)]
    rfl
  folds := by
    intro b hb
    obtain ⟨x, last⟩ := exists_lastValue? hb
    have found : (tableOf r).1.findVariable? b.name = some ⟨x, true⟩ := by
      rw [findVariable?_tableOf, last]
      rfl
    exact ⟨x, last, compile_of_isName (names b (List.mem_append_right _ hb)) found⟩
  reads := by
    intro b hb unfixed
    obtain ⟨x, last⟩ := exists_lastValue? hb
    have found : (tableOf r).1.findVariable? b.name = some ⟨x, false⟩ := by
      rw [findVariable?_tableOf, unfixed, last]
      rfl
    exact ⟨x, last, compile_of_isName (names b (List.mem_append_left _ hb)) found⟩
  warns := by
    have made : r.steps.map (·.1) = r.bindings := by
      simp [Request.steps, Request.bindings, Function.comp_def]
    rw [tableOf_eq_makeAll, warnings_makeAll, made, List.nil_append, List.map_map]
    simp only [isSome_findVariable?_builtins]
    rfl

/-- Some texts are read as some bindings, one by one. -/
def ReadAs (texts : List String) (bs : List Binding) : Prop :=
  List.Forall₂ (fun text b => Binding.read text = .ok b) texts bs

theorem ReadAs.isName {texts : List String} {bs : List Binding} (h : ReadAs texts bs) :
    ∀ b ∈ bs, isName b.name.toList = true := by
  induction h with
  | nil => nofun
  | cons read _ ih => exact List.forall_mem_cons.mpr ⟨isName_of_read read, ih⟩

/-- **Every binding that is accepted can be used in a formula**, with the value that was given last, and every name
that a formula can use is accepted. -/
theorem bindings_hold {variableTexts constantTexts : List String} {r : Request}
    (variableRead : ReadAs variableTexts r.variables) (constantRead : ReadAs constantTexts r.constants) :
    r.Bound ∧ ∀ name, IsOneName name → AcceptedAsName name :=
  ⟨bound_of_isName (List.forall_mem_append.mpr ⟨variableRead.isName, constantRead.isName⟩),
    fun _ => acceptedAsName_of_isOneName⟩

/-- A request that binds a name twice, and the name of a builtin constant. -/
def boundTwice : Request where
  «variables» := [⟨"x", Parser.literalValue "1"⟩, ⟨"pi", Parser.literalValue "3"⟩]
  constants := [⟨"x", Parser.literalValue "2"⟩]

/-- The constant is what `x` is then, and both replacements are warned about. -/
theorem bindings_hold_boundTwice :
    ReadAs ["x=1", " pi = 3"] boundTwice.variables ∧ ReadAs ["x=2"] boundTwice.constants ∧
      (boundTwice.Bound ∧ ∀ name, IsOneName name → AcceptedAsName name) ∧
      (replacements isBuiltinConstant boundTwice.bindings).map (·.name) = ["pi", "x"] := by
  have variableRead : ReadAs ["x=1", " pi = 3"] boundTwice.variables := .cons rfl (.cons rfl .nil)
  have constantRead : ReadAs ["x=2"] boundTwice.constants := .cons rfl .nil
  exact ⟨variableRead, constantRead, bindings_hold variableRead constantRead, rfl⟩

end Formula.CommandLine
