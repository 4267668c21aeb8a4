/-! # Kinds of tokens

Every terminal of the language, with the label it is shown by. A label is the spelling of the
keyword, mark or operator; a kind that has many spellings is named instead. A word is reserved if it
is the label of a keyword. -/

namespace Routine

/-- What a token is: a keyword, a mark, an operator, a word or constant with a value of its own,
text that is no token, or the end of the input. -/
inductive Kind where
  -- keywords
  | routineKw | declareKw | beginKw | endKw | intKw | floatKw | charKw | ifKw | thenKw | elseKw
  | whileKw | doKw | repeatKw | untilKw | readKw | writeKw | notKw | andKw | orKw
  -- marks
  | assign | semicolon | comma | leftParen | rightParen
  -- operators
  | plus | minus | star | slash | equal | notEqual | greater | less | greaterEqual | lessEqual
  -- words and constants
  | identifier | intConst | floatConst | charConst | stringConst
  -- text that is no token, and the end
  | invalid | eof
deriving DecidableEq, Repr, Inhabited

namespace Kind

/-- All kinds, keywords first. -/
def all : List Kind :=
  [routineKw, declareKw, beginKw, endKw, intKw, floatKw, charKw, ifKw, thenKw, elseKw, whileKw,
    doKw, repeatKw, untilKw, readKw, writeKw, notKw, andKw, orKw, assign, semicolon, comma,
    leftParen, rightParen, plus, minus, star, slash, equal, notEqual, greater, less, greaterEqual,
    lessEqual, identifier, intConst, floatConst, charConst, stringConst, invalid, eof]

theorem mem_all (k : Kind) : k ∈ all := by
  cases k <;> decide

/-- The place of a kind in `all`. -/
def index (k : Kind) : Nat :=
  k.ctorIdx

theorem index_lt (k : Kind) : k.index < 41 := by
  cases k <;> decide

theorem map_index_all : all.map index = List.range all.length := by
  decide

theorem exists_index {i : Nat} (h : i < all.length) : ∃ k : Kind, k.index = i := by
  have hi : i ∈ all.map index := by
    rw [map_index_all]
    exact List.mem_range.2 h
  obtain ⟨k, -, hk⟩ := List.mem_map.1 hi
  exact ⟨k, hk⟩

theorem index_inj {j k : Kind} : j.index = k.index ↔ j = k := by
  constructor
  · intro h
    have hget : ∀ k : Kind, all[k.index]? = some k := fun k => by cases k <;> rfl
    have := hget j
    rw [h, hget k] at this
    exact (Option.some.inj this).symm
  · exact congrArg index

/-- What a kind is shown as. -/
def label : Kind → String
  | routineKw => "routine"
  | declareKw => "declare"
  | beginKw => "begin"
  | endKw => "end"
  | intKw => "int"
  | floatKw => "float"
  | charKw => "char"
  | ifKw => "if"
  | thenKw => "then"
  | elseKw => "else"
  | whileKw => "while"
  | doKw => "do"
  | repeatKw => "repeat"
  | untilKw => "until"
  | readKw => "read"
  | writeKw => "write"
  | notKw => "not"
  | andKw => "and"
  | orKw => "or"
  | assign => ":="
  | semicolon => ";"
  | comma => ","
  | leftParen => "("
  | rightParen => ")"
  | plus => "+"
  | minus => "-"
  | star => "*"
  | slash => "/"
  | equal => "="
  | notEqual => "<>"
  | greater => ">"
  | less => "<"
  | greaterEqual => ">="
  | lessEqual => "<="
  | identifier => "identifier"
  | intConst => "integer constant"
  | floatConst => "float constant"
  | charConst => "char constant"
  | stringConst => "string literal"
  | invalid => "invalid token"
  | eof => "EOF"

/-- The kinds that are spelled as a word of the language. -/
def keywords : List Kind :=
  [routineKw, declareKw, beginKw, endKw, intKw, floatKw, charKw, ifKw, thenKw, elseKw, whileKw,
    doKw, repeatKw, untilKw, readKw, writeKw, notKw, andKw, orKw]

/-- The keyword spelled as `word`; none if the word is free to be a name. -/
def ofReserved? (word : String) : Option Kind :=
  keywords.find? fun k => k.label = word

/-- A word is reserved for a kind exactly if it is the label of that keyword. -/
theorem ofReserved?_eq_some_iff {word : String} {k : Kind} :
    ofReserved? word = some k ↔ k ∈ keywords ∧ k.label = word := by
  constructor
  · intro h
    exact ⟨List.mem_of_find?_eq_some h, by simpa using List.find?_some h⟩
  · rintro ⟨hk, rfl⟩
    revert hk
    cases k <;> decide

end Kind

end Routine
