import Zua.Base.Float64
import Zua.Base.FloatIntegers
import Zua.Base.HashMap
import Zua.Base.ArrayHashMap
import Zua.Base.Bytes
import Zua.Base.Except
import Zua.Base.Hoare
import Zua.Base.Both
import Zua.Base.Shown
import Zua.Lex.Token
import Zua.Lex.Lexer
import Zua.Lex.Lookahead
import Zua.Lex.Tiling
import Zua.Lex.Lines
import Zua.Lex.Llex
import Zua.Lex.Sync
import Zua.Lex.QuotedString
import Zua.Lex.LongBracket
import Zua.Lex.Agreement
import Zua.Lex.ParseLiteral
import Zua.Lex.LongString
import Zua.Lex.Number
import Zua.Object.Value
import Zua.Object.Table
import Zua.Object.Border
import Zua.Object.Next
import Zua.Object.Keys
import Zua.Hybrid.Table
import Zua.Hybrid.Keys
import Zua.Hybrid.Getn
import Zua.Hybrid.Next
import Zua.Base.Linked
import Zua.Base.Marking
import Zua.Code.Opcodes
import Zua.Memory.Heap
import Zua.Code.Dump
import Zua.Code.Check
import Zua.Syntax.Ast
import Zua.Parse.Parser
import Zua.Parse.Statements
import Zua.Parse.Reads
import Zua.Parse.Precedence
import Zua.Parse.Shape
import Zua.Parse.Balance
import Zua.Parse.Levels
import Zua.Parse.Frames
import Zua.Parse.Breaks
import Zua.Parse.Tracks
import Zua.Parse.Grammar
import Zua.Parse.Complete
import Zua.Parse.Sound
import Zua.Parse.LastToken
import Zua.Compile.Func
import Zua.Compile.Gen
import Zua.Compile.Nested
import Zua.Compile.Scope
import Zua.Compile.Lexical
import Zua.Compile.Checked
import Zua.Compile.Emitted
import Zua.Compile.Accepted
import Zua.Compile.Straight
import Zua.Compile.Registers
import Zua.Compile.Discipline
import Zua.Compile.Statements
import Zua.Compile.Blocks
import Zua.Compile.Results
import Zua.Compile.Loops
import Zua.Compile.BreakLists
import Zua.Compile.Reachable
import Zua.Memory.Collect
import Zua.Memory.Mark
import Zua.Memory.Sweep
import Zua.Memory.Exact
import Zua.Memory.Trace
import Zua.Memory.State
import Zua.Vm.Machine
import Zua.Vm.Globals
import Zua.Vm.Execute
import Zua.Vm.Verified
import Zua.Vm.Entry
import Zua.Vm.Calls
import Zua.Vm.Raise
import Zua.Vm.Loads
import Zua.Vm.Paths
import Zua.Run.Simulate
import Zua.Run.Describe
import Zua.Run.Evaluate
import Zua.Run.Operators
import Zua.Run.Expressions
import Zua.Run.Values
import Zua.Run.Locals
import Zua.Run.NumericFor
import Zua.Run.Assignments
import Zua.Run.Conditions
import Zua.Run.Chunks
import Zua.Run.Safety
import Zua.Run.Source
import Zua.Stdlib.Table
import Zua.Stdlib.Sort
import Zua.Stdlib.Select
import Zua.Stdlib.Pcall
import Zua.Memory.Runs
import Zua.Memory.Register
import Zua.Memory.Accounts
import Zua.Memory.Fresh
import Zua.Memory.Pool
import Zua.Compile.FloatingPointByte
import Zua.Compile.Constants
import Zua.Compile.Branches
import Zua.Compile.Guards
import Zua.Compile.Occurrences
import Zua.Compile.IfStatements
import Zua.Run.Constructors
import Zua.Stdlib.Api
