import Formula.Expr.Basic

/-!
# Outlines — an expression, one field a line

The **outline** of an expression shows every node on lines of its own: the kind of the node, the text
that its span has in the source, and then each child under a heading, two columns further in. The
headings are `left:` and `right:`, `arg:`, or `args[0]:` and so on. A call without arguments has no
heading at all.

An outline is first of all a list of lines, each with its depth and its text; `Ast.outline` writes them
down. The lines of an expression are built in front of the lines that come after it, so no line is
copied while the outline grows.
-/

namespace Formula

/-- **A line of an outline.** -/
structure OutlineLine where
  depth : Nat
  text : List Char
deriving DecidableEq, Repr

namespace OutlineLine

def field (depth : Nat) (name value : List Char) : OutlineLine :=
  ⟨depth, name ++ ": '".toList ++ value ++ ['\'']⟩

def heading (depth : Nat) (name : List Char) : OutlineLine := ⟨depth, name ++ [':']⟩

/-- The line written down, two columns in for each level of depth. -/
def render (l : OutlineLine) : List Char := List.replicate (2 * l.depth) ' ' ++ l.text ++ ['\n']

end OutlineLine

def argumentName (i : Nat) : List Char := "args[".toList ++ (Nat.repr i).toList ++ [']']

/-- The two lines that every node has, in front of some lines. -/
def nodeLines (source : List Char) (depth : Nat) (e : Expr) (after : List OutlineLine) : List OutlineLine :=
  .field depth "type".toList e.kindName.toList ::
    .field depth "value".toList (e.span.sliceChars source) :: after

mutual
/-- **The lines of an expression** at a depth, its texts taken from `source`, in front of the lines that
come after it. -/
def Expr.outlineLines (source : List Char) (depth : Nat) : Expr → List OutlineLine → List OutlineLine
  | .number v s, after => nodeLines source depth (.number v s) after
  | .identifier n s, after => nodeLines source depth (.identifier n s) after
  | .unary sign e s, after =>
    nodeLines source depth (.unary sign e s)
      (.heading depth "arg".toList :: e.outlineLines source (depth + 1) after)
  | .binary op l r s, after =>
    nodeLines source depth (.binary op l r s)
      (.heading depth "left".toList ::
        l.outlineLines source (depth + 1)
          (.heading depth "right".toList :: r.outlineLines source (depth + 1) after))
  | .call n as s, after => nodeLines source depth (.call n as s) (outlineArguments source depth 0 as after)
/-- The lines of arguments, the first of them at position `i`, each under its heading. -/
def outlineArguments (source : List Char) (depth i : Nat) : List Expr → List OutlineLine → List OutlineLine
  | [], after => after
  | e :: es, after =>
    .heading depth (argumentName i) ::
      e.outlineLines source (depth + 1) (outlineArguments source depth (i + 1) es after)
end

/-- **The outline of a tree**, written down. -/
def Ast.outline (a : Ast) : String :=
  String.ofList ((a.root.outlineLines a.source.toList 0 []).flatMap OutlineLine.render)

end Formula
