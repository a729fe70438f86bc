import LuaLint.Main
import LuaLint.Proofs.Diagnostic.Underlines
import LuaLint.Proofs.Editor.Cursor
import LuaLint.Proofs.Editor.Mirror
import LuaLint.Proofs.Editor.Renaming
import LuaLint.Proofs.Lexing.Scanning
import LuaLint.Proofs.Library.Bases
import LuaLint.Proofs.Library.Calls
import LuaLint.Proofs.Library.Declarations
import LuaLint.Proofs.Library.Integrity
import LuaLint.Proofs.Library.Reload
import LuaLint.Proofs.Library.Removal
import LuaLint.Proofs.Library.Termination
import LuaLint.Proofs.Lint.ArgumentCounts
import LuaLint.Proofs.Lint.CreatedGlobals
import LuaLint.Proofs.Lint.EmptyArms
import LuaLint.Proofs.Lint.Independence
import LuaLint.Proofs.Lint.UnusedVariables
import LuaLint.Proofs.Parsing.Comments
import LuaLint.Proofs.Parsing.StringLiterals
import LuaLint.Proofs.Scope.Innermost
import LuaLint.Proofs.Syntax.Enclosing
