import Routine.Production.Stmt

/-! # Reading programs

A section of declarations is looked for unless the body begins at once. A fault in a declaration
makes a gap in it; a missing semicolon ends the whole section. Tokens behind the end of a program
are reported once and passed over. -/

namespace Routine

/-- The type a kind stands for. -/
def ScalarType.ofKind? : Kind → Option ScalarType
  | .intKw => some .int
  | .floatKw => some .float
  | .charKw => some .char
  | _ => none

namespace Production

open Procedure

/-- The name of a type. -/
def scalarType : Procedure (Option ScalarType) := oneOf .scalarType ScalarType.ofKind?

/-- Commas, each with a name. A comma without a name is a fault in all names of the declaration. -/
def moreNames : Procedure (Option (List Ident)) := do
  let more ← expect .comma
  if more then
    let t ← next
    if t.kind = .identifier then
      let rest ← read .moreNames
      return rest.map (Ident.ofToken t :: ·)
    else
      fail .names
  else
    pushBack
    return some []

/-- A name, and those behind commas. -/
def names : Procedure (Option (List Ident)) := do
  let t ← next
  if t.kind = .identifier then
    let rest ← read .moreNames
    return rest.map (Ident.ofToken t :: ·)
  else
    fail .names

/-- A type and the names it is given to. -/
def declaration : Procedure Decl := do
  let type ← scalarType
  let ids ← names
  return ⟨type, ids⟩

/-- A declaration with its semicolon, and those behind it. -/
def declarationAndMore : Procedure (Option (List Decl)) := do
  let d ← declaration
  let closed ← expect .semicolon
  if closed then
    let rest ← read .moreDeclarations
    return rest.map (d :: ·)
  else
    fail .declarations

/-- Declarations as long as the next token names a type. -/
def moreDeclarations : Procedure (Option (List Decl)) := do
  let k ← peek
  match ScalarType.ofKind? k with
  | some _ => declarationAndMore
  | none => return some []

/-- The word that opens the section, then at least one declaration. -/
def declarations : Procedure (Option (List Decl)) := do
  let begun ← expect .declareKw
  if begun then declarationAndMore else fail .declarations

/-- The section of declarations, which is left out if the body begins at once. -/
def declSection : Procedure DeclSection := do
  let k ← peek
  if k = .beginKw then
    return .omitted
  else
    let ds ← declarations
    match ds with
    | some ds => return .listed ds
    | none => return .gap

/-- The declarations, and the statements between their words. -/
def body : Procedure (Option Body) := do
  let ds ← declSection
  let begun ← expect .beginKw
  if begun then
    let block ← read .statements
    let closed ← expect .endKw
    if closed then return some ⟨ds, block⟩ else fail .body
  else
    fail .body

/-- The first word, the body, and the end of the input. -/
def program : Procedure (Option Program) := do
  let begun ← expect .routineKw
  if begun then
    let b ← body
    let k ← peek
    if k = .eof then
      return some ⟨b⟩
    else
      note .leftover
      recover .program
      return some ⟨b⟩
  else
    fail .program

end Production

end Routine
