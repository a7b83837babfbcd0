import DocBlocks.Grammar.Rule

/-
  Parts that many rules share.
-/

namespace DocBlocks.Rule

/-- Anything that can be assigned to. -/
def anyVariable : Rule :=
  choice [called "cast_expression" (rule "cast_variable"), rule "callable_variable",
    rule "scoped_property_access_expression", rule "member_access_expression",
    rule "nullsafe_member_access_expression"]

/-- Any word as a name, also one that stands for a class. -/
def anyName : Rule :=
  choice [token .name, rule "class_word"]

/-- A path of names, or a word that stands for a class. -/
def anyPath : Rule :=
  choice [rule "path", rule "class_word"]

/-- The name of something new. -/
def newName : Rule := role "name" (token .given)

/-- The attributes in front of a declaration. -/
def attributes : Rule := optional (role "attributes" (rule "attribute_list"))

/-- The modifiers in front of a declaration. -/
def modifiers : Rule := many (rule "modifier")

/-- A condition between parentheses. -/
def condition : Rule := role "condition" (rule "parenthesized_expression")

/-- A statement as the body of another one. -/
def body : Rule := role "body" (rule "statement")

/-- A block as the body of a declaration or a clause. -/
def block : Rule := role "body" (rule "compound_statement")

/-- Statements behind a colon as the body of another one. -/
def colonBody : Rule := role "body" (rule "colon_block")

/-- The end of a statement. -/
def statementEnd : Rule := rule "statement_end"

/-- Any number of statements. -/
def statements : Rule := many (rule "statement")

end DocBlocks.Rule
