import RubyTree.Lower.Block
import RubyTree.Lower.Branch
import RubyTree.Lower.Collection
import RubyTree.Lower.Definition
import RubyTree.Lower.Operator
import RubyTree.Lower.Production
import RubyTree.Lower.Rescue

/-!
# Lowering

Lowers a raw tree by the production that each of its nodes names. Productions
lower the fields of a node through the visitor they are given, and that visitor
is lowering itself with one less step of depth: every field is less deep than
its node, so the depth of the raw tree is enough for all of it.

## Main definitions

* `Production.lower`: A node by its production.
* `LowerM.lowerAt`: A raw tree up to a depth.
* `LowerM.lower`: A raw tree.
* `LowerM.lowerProgram`: A program, absent if it has no statements.
-/

namespace RubyTree

open LowerM

/-- Builds a node from the fields of a raw one. -/
def Production.lower (go : Visit) (fs : Fields) : Production → LowerM Tree
  | within => go (fs.get 0)
  | part => visitBody go (fs.get 0)
  | single tag => lowerSingle tag go fs
  | double tag => lowerDouble tag go fs
  | bare tag => return .bare tag []
  | withArgs tag => lowerWithArgs tag go fs
  | fields tag => lowerFields tag go fs
  | each tag => lowerEach tag go fs
  | statements => lowerStatements go fs
  | empty => lowerEmpty fs
  | documented => lowerDocumented go fs
  | paren => lowerParen go fs
  | hook tag => lowerHook tag go fs
  | moduleDef => lowerModule go fs
  | classDef => lowerClass go fs
  | singletonClass => lowerSingletonClass go fs
  | method => lowerMethod go fs
  | singletonMethod => lowerSingletonMethod go fs
  | globalAlias => lowerGlobalAlias fs
  | name tag => lowerName tag fs
  | constant => lowerConstant fs
  | scopedConstant => lowerScopedConstant go fs
  | topConstant => lowerTopConstant fs
  | label => lowerLabel fs
  | keyword => lowerKeyword fs
  | backReference => lowerBackReference fs
  | integer => lowerInteger fs
  | float => lowerFloat fs
  | rational => lowerRational fs
  | imaginary => lowerImaginary fs
  | character => lowerCharacter fs
  | content => lowerContent fs
  | string => lowerString go fs
  | parts tag => lowerParts tag go fs
  | embedded => lowerEmbedded go fs
  | embeddedVariable => lowerEmbeddedVariable go fs
  | regexp => lowerRegexp go fs
  | symbolLiteral => lowerSymbolLiteral go fs
  | symbol => symbolContent go (fs.get 0)
  | quotedSymbol => quotedSymbolContent go (fs.get 0)
  | symbolWords => return .bare "words" (← fs.mapM (symbolContent go))
  | quotedSymbolWords => return .bare "words" (← fs.mapM (quotedSymbolContent go))
  | collection tag => lowerCollection tag go fs
  | pair => lowerPair go fs
  | assign => lowerAssign go fs
  | multiAssign => lowerMultiAssign go fs
  | operatorAssign => lowerOperatorAssign go fs
  | targets => lowerTargets go fs
  | targetsStar => lowerTargetsStar go fs
  | targetsPost => lowerTargetsPost go fs
  | valuesFromArgs => lowerValuesFromArgs go fs
  | valuesStar => lowerValuesStar go fs
  | indexTarget => lowerIndexTarget go fs
  | attributeTarget => lowerAttributeTarget go fs
  | call => lowerCall go fs
  | command => lowerCommand go fs
  | commandCall => lowerCommandCall go fs
  | bareName => lowerBareName fs
  | function => lowerFunction fs
  | callWithArgs => lowerCallWithArgs go fs
  | argParen => lowerArgParen go fs
  | argsBlock => lowerArgsBlock go fs
  | argsStar => lowerArgsStar go fs
  | index => lowerIndex go fs
  | blockCall => lowerBlockCall go fs
  | blockBody => lowerBlockBody go fs
  | lambda => lowerLambda go fs
  | blockParams => lowerBlockParams go fs
  | params => lowerParams go fs
  | namedParam tag => lowerNamedParam tag fs
  | begin => lowerBegin go fs
  | body => lowerBody go fs
  | rescueModifier => lowerRescueModifier go fs
  | conditional => lowerIf go fs
  | unlessConditional => lowerUnless go fs
  | ifModifier => lowerIfModifier go fs
  | unlessModifier => lowerUnlessModifier go fs
  | ternary => lowerTernary go fs
  | choice => lowerCase go fs
  | loop word => lowerLoop word go fs
  | loopModifier word => lowerLoopModifier word go fs
  | forLoop => lowerFor go fs
  | arrayPattern => lowerArrayPattern go fs
  | findPattern => lowerFindPattern go fs
  | hashPattern => lowerHashPattern go fs
  | binary => lowerBinary go fs
  | unary => lowerUnary go fs

namespace LowerM

/-- Lowers a node with the given visitor for its fields. What counts as absent
    is absent, and everything else has to be a node. -/
def lowerWith (go : Visit) (r : Raw) : LowerM Tree :=
  if r.isEmpty then return .null
  else match r with
    | .list (.str tag :: fs) =>
      match Production.ofTag? tag with
      | some production => production.lower go fs
      | none => throw (.unknownTag tag)
    | _ => throw .notANode

/-- Lowers a raw tree in which lists nest at most `depth` deep. -/
def lowerAt : Nat → Raw → LowerM Tree
  | 0 => lowerWith fun _ => throw .shape
  | depth + 1 => lowerWith (lowerAt depth)

/-- Lowers a raw tree. -/
def lower (r : Raw) : LowerM Tree :=
  lowerAt r.depth r

/-- Lowers a program; one without statements is absent. -/
def lowerProgram (r : Raw) : LowerM (Option Tree) := do
  let t ← lower r
  return if t.isVoid then none else some t

end LowerM

end RubyTree
