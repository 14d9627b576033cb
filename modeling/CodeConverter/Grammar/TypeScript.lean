import CodeConverter.Line.Form

/-!
# Line forms of TypeScript

Only the lines that concern the type checker have forms of their own.
-/

namespace CodeConverter.Grammar.TypeScript

open Text Pattern

/-- An optional word followed by blanks. -/
def mark (w : String) : Pattern :=
  maybe (.literal w.toList ++ gap)

/-- The header of an interface. -/
def interfaceHeader : Pattern :=
  atStart ++ mark "export" ++ mark "default" ++ mark "declare" ++ "interface" ++ gap ++ word

/-- A name for a type. -/
def typeAlias : Pattern :=
  atStart ++ mark "export" ++ mark "declare" ++ "type" ++ gap ++ word ++
    maybe ("<" ++ many (except "=") ++ ">") ++ blanks ++ "="

/-- A declaration without a definition. -/
def ambient : Pattern :=
  atStart ++ mark "export" ++ "declare" ++ gap

/-- An import or export of types. -/
def typeImport : Pattern :=
  atStart ++ keyword ["import", "export"] ++ gap ++ "type" ++ wordEdge

/-- An index signature. -/
def indexSignature : Pattern :=
  atStart ++ "[" ++ blanks ++ word ++ blanks ++ ":" ++ blanks ++ word ++ blanks ++ "]" ++ blanks ++
    ":" ++ anything ++ ";" ++ atEnd

/-- An enum with its export mark, name, the members on the line, and the brace that ends it. -/
def enumHeader : Pattern :=
  atStart ++ maybe (group 1 ("export" ++ gap)) ++ mark "declare" ++ mark "const" ++ "enum" ++ gap ++
    group 2 word ++
    blanks ++ "\x7b" ++ blanks ++ group 3 little ++ blanks ++
    maybe (group 4 ("\x7d" ++ blanks ++ maybe ";")) ++ atEnd

/-- The grammar. -/
def all : List LineForm :=
  [⟨.typeOnly, interfaceHeader⟩, ⟨.typeOnly, typeAlias⟩, ⟨.typeOnly, ambient⟩,
    ⟨.typeOnly, typeImport⟩, ⟨.typeOnly, indexSignature⟩, ⟨.enumHeader, enumHeader⟩]

end CodeConverter.Grammar.TypeScript
