import Routine.Tree.Stmt

/-! # Programs

A program is a section of declarations, which may be left out, and a block of statements. A section
that was begun but could not be read is a gap, and so is a type, a list of names or a whole body. -/

namespace Routine

/-- The types of names. -/
inductive ScalarType where
  | int | float | char
deriving DecidableEq, Repr, Inhabited

/-- A declaration of names of one type. -/
structure Decl where
  type : Option ScalarType
  names : Option (List Ident)
deriving DecidableEq, Repr, Inhabited

/-- The declarations in front of a body. -/
inductive DeclSection where
  /-- The program declares nothing. -/
  | omitted
  /-- The section could not be read. -/
  | gap
  | listed (decls : List Decl)
deriving DecidableEq, Repr, Inhabited

/-- What a program consists of. -/
structure Body where
  declarations : DeclSection
  statements : Block
deriving Inhabited

/-- A program, whose body may be missing. -/
structure Program where
  body : Option Body
deriving Inhabited

namespace DeclSection

/-- The declarations that were read. -/
def decls : DeclSection → List Decl
  | omitted | gap => []
  | listed ds => ds

end DeclSection

/-- The spelling of a type. -/
def ScalarType.text : ScalarType → String
  | int => "int"
  | float => "float"
  | char => "char"

/-- Names in a row. -/
def namesText (ids : List Ident) : String :=
  String.intercalate ", " (ids.map Ident.name)

/-- A declaration is shown as its type and its names. -/
def Decl.text (d : Decl) : String :=
  textOrGap ScalarType.text d.type ++ " " ++ textOrGap namesText d.names

/-- Declarations, each on a line of its own. -/
def declsText (ds : List Decl) : String :=
  String.join (ds.map fun d => indent 1 ++ d.text ++ ";\n")

/-- A section that is left out is not shown at all. -/
def DeclSection.text : DeclSection → String
  | omitted => ""
  | gap => "declare\n" ++ indent 1 ++ gapText ++ "\n"
  | listed ds => "declare\n" ++ declsText ds

/-- The declarations, then the statements. -/
def Body.text (b : Body) : String :=
  b.declarations.text ++ "begin\n" ++ b.statements.textAt 1 ++ "\nend"

/-- A program is shown as its first word and its body. -/
def Program.text (p : Program) : String :=
  "routine\n" ++ textOrGap Body.text p.body

end Routine
