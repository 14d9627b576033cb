import CodeConverter.Log.Setup
import CodeConverter.Proofs.BlankLines
import CodeConverter.Proofs.Block.Content
import CodeConverter.Proofs.Brace.Balance
import CodeConverter.Proofs.Brace.Opening
import CodeConverter.Proofs.Brace.Program.ToBrace
import CodeConverter.Proofs.Brace.Program.ToIndent
import CodeConverter.Proofs.Erasure.Enum
import CodeConverter.Proofs.Erasure.Rounds
import CodeConverter.Proofs.Erasure.Skipping
import CodeConverter.Proofs.Expression.Array
import CodeConverter.Proofs.Expression.Dictionary
import CodeConverter.Proofs.Expression.Literals
import CodeConverter.Proofs.Indent.Binding
import CodeConverter.Proofs.Indent.Braces
import CodeConverter.Proofs.Indent.Brackets
import CodeConverter.Proofs.Indent.Condition
import CodeConverter.Proofs.Indent.Program
import CodeConverter.Proofs.Literal.Template
import CodeConverter.Proofs.Log
import CodeConverter.Proofs.Loop.Values
import CodeConverter.Proofs.Service.Rejection
import CodeConverter.Proofs.Spelling.Inverse
import CodeConverter.Proofs.Spelling.Literals
import CodeConverter.Proofs.TypeName
