import EcmaSyntax.Grammar.State

/-!
# Recursion in the grammar

Expressions, patterns and statements contain each other. Each production is written on its own, with
an argument `r : Recur` that reads whatever may contain it again; `Grammar.run` ties them together.
A `Rule` is one of the productions that are reached in this way.
-/

namespace EcmaSyntax

/-- The word that introduces a declaration. -/
inductive Declares where
  /-- A variable of the whole function. -/
  | hoisted
  /-- A variable of the block. -/
  | scoped
  | constant
  /-- A resource that is released with the block. -/
  | resource
  deriving DecidableEq, Repr, Inhabited

def Declares.word : Declares → String
  | .hoisted => "var"
  | .scoped => "let"
  | .constant => "const"
  | .resource => "using"

/-- The productions that are read through `Recur`. -/
inductive Rule where
  | assignment
  | exponentiation
  | unary
  | callChain
  | memberChain
  | pattern (kind : Option Declares)
  | statement
  /-- A statement or a declaration. -/
  | item
  | element
  deriving DecidableEq, Repr, Inhabited

/-- What a rule gives: a node, and with a pattern also the tokens of the names that it binds. -/
abbrev Rule.Result : Rule → Type
  | .pattern _ => Node × List Token
  | _ => Node

def Recur : Type := (rule : Rule) → Parse rule.Result

namespace Recur

def assignment (r : Recur) : Parse Node := r .assignment

def exponentiation (r : Recur) : Parse Node := r .exponentiation

def unary (r : Recur) : Parse Node := r .unary

def callChain (r : Recur) : Parse Node := r .callChain

def memberChain (r : Recur) : Parse Node := r .memberChain

/-- Reads a pattern; the tokens are those of the names that it binds. -/
def pattern (r : Recur) (kind : Option Declares) : Parse (Node × List Token) := r (.pattern kind)

def statement (r : Recur) : Parse Node := r .statement

def item (r : Recur) : Parse Node := r .item

def element (r : Recur) : Parse Node := r .element

end Recur

end EcmaSyntax
