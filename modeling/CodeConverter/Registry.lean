import CodeConverter.Erasure.Scan
import CodeConverter.Indent.Scan

/-!
# Conversions between languages

The catalogue has the languages that requests may name. The registry gives for each supported pair
of them the converters to run one after another. Other pairs get the source back under a comment
that says so.
-/

namespace CodeConverter

/-- A catalogued language. -/
structure Language where
  tag : Text
  displayName : Text
  lineComment : Text
  deriving DecidableEq

namespace Language

/-- The known languages. -/
def catalogue : List Language := [
  ⟨"javascript", "JavaScript", "//"⟩,
  ⟨"python", "Python", "#"⟩,
  ⟨"java", "Java", "//"⟩,
  ⟨"csharp", "C#", "//"⟩,
  ⟨"cpp", "C++", "//"⟩,
  ⟨"php", "PHP", "//"⟩,
  ⟨"ruby", "Ruby", "#"⟩,
  ⟨"swift", "Swift", "//"⟩,
  ⟨"kotlin", "Kotlin", "//"⟩,
  ⟨"go", "Go", "//"⟩,
  ⟨"rust", "Rust", "//"⟩,
  ⟨"typescript", "TypeScript", "//"⟩,
  ⟨"scala", "Scala", "//"⟩,
  ⟨"dart", "Dart", "//"⟩,
  ⟨"r", "R", "#"⟩,
  ⟨"perl", "Perl", "#"⟩,
  ⟨"haskell", "Haskell", "--"⟩,
  ⟨"bash", "Bash", "#"⟩]

/-- The language with a tag, if there is one. -/
def ofTag? (tag : Text) : Option Language :=
  catalogue.find? fun language => language.tag = tag

/-- The language with a tag. -/
def ofTag (tag : Text) : Except Fault Language :=
  match ofTag? tag with
  | some language => .ok language
  | none => .error (.unknownLanguage tag)

/-- Whether a language has the tag. -/
def isKnown (tag : Text) : Bool :=
  (ofTag? tag).isSome

/-- The mark of line comments for a tag. Tags outside the catalogue have the most common one. -/
def commentMark (tag : Text) : Text :=
  match ofTag? tag with
  | some language => language.lineComment
  | none => "//"

end Language

/-- A converter from one language to another, or one of the general scans. -/
inductive Converter where
  /-- No rules for lines at all. -/
  | bare
  | brace (c : Brace.Conversion)
  | indent (c : Indent.Conversion)
  | erasure
  deriving DecidableEq

namespace Converter

/-- The machine without rules for lines. -/
def bareMachine : LineMachine Unit where
  initial := ()
  visit := fun _ _ => .error .noLineRules
  finish := pure
  output := fun _ => #[]

/-- The source converted. -/
def convert (c : Converter) (source : Text) : Except Fault Text :=
  match c with
  | .bare => bareMachine.convert source
  | .brace c => (Brace.machine c).convert source
  | .indent c => (Indent.machine c).convert source
  | .erasure => Erasure.machine.convert source

/-- The forms of lines of a converter. -/
def grammar : Converter → List LineForm
  | .bare => []
  | .brace c => c.grammar
  | .indent _ => Grammar.Python.all
  | .erasure => Grammar.TypeScript.all

/-- The blanks a converter writes per level of depth. -/
def indentSize : Converter → Nat
  | .bare => 4
  | .brace c => c.style.indentSize
  | .indent c => c.indentSize
  | .erasure => 4

/-- The source converted step by step. -/
def convertAll (chain : List Converter) (source : Text) : Except Fault Text :=
  chain.foldlM (fun code c => c.convert code) source

end Converter

namespace Registry

/-- A registered pair of languages and the converters between them. -/
structure Entry where
  source : Text
  target : Text
  chain : List Converter

/-- The registered conversions. -/
def entries : List Entry := [
  ⟨"javascript", "python", [.brace .javascriptToPython]⟩,
  ⟨"java", "python", [.brace .javaToPython]⟩,
  ⟨"php", "python", [.brace .phpToPython]⟩,
  ⟨"python", "javascript", [.indent .toJavaScript]⟩,
  ⟨"python", "java", [.indent .toJava]⟩,
  ⟨"python", "typescript", [.indent .toTypeScript]⟩,
  ⟨"python", "php", [.indent .toPhp]⟩,
  ⟨"typescript", "javascript", [.erasure]⟩,
  ⟨"typescript", "python", [.erasure, .brace .javascriptToPython]⟩,
  ⟨"csharp", "javascript", [.brace .csharpToJavaScript]⟩,
  ⟨"javascript", "csharp", [.brace .javascriptToCSharp]⟩,
  ⟨"javascript", "java", [.brace .javascriptToJava]⟩,
  ⟨"java", "javascript", [.brace .javaToJavaScript]⟩]

/-- The registered pairs of languages. -/
def pairs : List (Text × Text) :=
  entries.map fun e => (e.source, e.target)

/-- The converters for a pair. -/
def chain? (source target : Text) : Option (List Converter) :=
  (entries.find? fun e => e.source = source && e.target = target).map (·.chain)

/-- Whether a pair is registered. -/
def isSupported (source target : Text) : Bool :=
  (chain? source target).isSome

/-- Whether a language is in a registered pair. -/
def hasLanguage (tag : Text) : Bool :=
  entries.any fun e => e.source = tag || e.target = tag

/-- The source under a comment that says that the pair is not supported. -/
def fallback (code source target : Text) : Text :=
  Language.commentMark target ++ " Conversion from " ++ source ++ " to " ++ target ++
    " is not supported yet\n" ++ code

/-- The code in the target language. -/
def convertCode (code source target : Text) : Except Fault Text :=
  match chain? source target with
  | none => pure (fallback code source target)
  | some chain => Converter.convertAll chain code

end Registry

/-- One step of an explanation. -/
structure ExplanationStep where
  title : Text
  sourceCode : Text
  targetCode : Text
  explanation : Text
  deriving DecidableEq

/-- What is said about a conversion. -/
structure Explanation where
  steps : List ExplanationStep
  highLevel : Text
  languageDifferences : Text
  deriving DecidableEq

/-- Converted code with its explanation. -/
structure Explained where
  targetCode : Text
  explanation : Explanation
  deriving DecidableEq

namespace Registry

/-- What is said about the step. -/
def stepSentence (source target : Text) : Text :=
  if isSupported source target then
    "Converted " ++ source ++ " code to " ++ target ++ " using local conversion logic."
  else
    "No converter is registered for " ++ source ++ " to " ++ target ++
    "; the source was returned unchanged."

/-- The explanation of a conversion. -/
def explain (code converted source target : Text) : Explanation where
  steps := [⟨"Code Conversion", code, converted, stepSentence source target⟩]
  highLevel :=
    "Code was converted from " ++ source ++ " to " ++ target ++
      " using pattern matching and syntax transformation."
  languageDifferences :=
    "Key differences between " ++ source ++ " and " ++ target ++ " were handled in the conversion."

/-- The code in the target language, explained. -/
def convertExplained (code source target : Text) : Except Fault Explained := do
  let converted ← convertCode code source target
  return ⟨converted, explain code converted source target⟩

end Registry

end CodeConverter
