/-
  Syntactic categories.

  Every node of a syntax tree carries the name of the grammar rule it was built from and a category
  out of the closed set `Kind`. Rules that no later step looks at share the categories `other` and
  `expr .other`.
-/

namespace DocBlocks

/-- The modifiers of a declaration. -/
inductive ModifierKind where
  | visibility
  | static
  | abstract
  | final
  | readonly
  deriving DecidableEq, Repr

/-- The forms of a parameter. A promoted one also declares a property. -/
inductive ParameterKind where
  | simple
  | variadic
  | promoted
  deriving DecidableEq, Repr

/-- The forms of a literal. An interpolated string is a double-quoted one, parts or not. -/
inductive LiteralKind where
  | string
  | interpolatedString
  | integer
  | float
  | boolean
  | null
  deriving DecidableEq, Repr

/-- The forms of an expression. -/
inductive ExprKind where
  | staticCall
  | memberCall
  | functionCall
  | closure
  | variable
  | array
  | literal (form : LiteralKind)
  | other
  deriving DecidableEq, Repr

/-- The category of a node. -/
inductive Kind where
  | program
  | namespaceDefinition
  | namespaceUse
  | classDeclaration
  | classBody
  | baseClause
  | method
  | modifier (form : ModifierKind)
  | parameterList
  | parameter (form : ParameterKind)
  | type
  | name
  | block
  | statement
  | expr (form : ExprKind)
  | arguments
  | argument
  | comment
  | trivia
  | token
  | other
  deriving DecidableEq, Repr

namespace Kind

instance : Inhabited Kind := ⟨other⟩

/-- The rules whose category their name alone gives. -/
def ofRule : List (String × Kind) :=
  [ ("program", program),
    ("namespace_definition", namespaceDefinition),
    ("namespace_use_declaration", namespaceUse),
    ("class_declaration", classDeclaration),
    ("declaration_list", classBody),
    ("base_clause", baseClause),
    ("method_declaration", method),
    ("visibility_modifier", modifier .visibility),
    ("static_modifier", modifier .static),
    ("abstract_modifier", modifier .abstract),
    ("final_modifier", modifier .final),
    ("readonly_modifier", modifier .readonly),
    ("formal_parameters", parameterList),
    ("simple_parameter", parameter .simple),
    ("variadic_parameter", parameter .variadic),
    ("property_promotion_parameter", parameter .promoted),
    ("named_type", type),
    ("primitive_type", type),
    ("optional_type", type),
    ("union_type", type),
    ("intersection_type", type),
    ("disjunctive_normal_form_type", type),
    ("bottom_type", type),
    ("type_list", type),
    ("name", name),
    ("qualified_name", name),
    ("namespace_name", name),
    ("relative_scope", name),
    ("compound_statement", block),
    ("arguments", arguments),
    ("argument", argument),
    ("comment", comment),
    ("scoped_call_expression", expr .staticCall),
    ("member_call_expression", expr .memberCall),
    ("nullsafe_member_call_expression", expr .memberCall),
    ("function_call_expression", expr .functionCall),
    ("anonymous_function", expr .closure),
    ("anonymous_function_creation_expression", expr .closure),
    ("arrow_function", expr .closure),
    ("variable_name", expr .variable),
    ("array_creation_expression", expr .array),
    ("string", expr (.literal .string)),
    ("encapsed_string", expr (.literal .interpolatedString)),
    ("integer", expr (.literal .integer)),
    ("float", expr (.literal .float)),
    ("boolean", expr (.literal .boolean)),
    ("null", expr (.literal .null)),
    ("heredoc", expr .other),
    ("nowdoc", expr .other) ]

/-- The category of a rule. The rule table comes first, then the ending of the rule's name. -/
def ofNamedRule (rule : String) : Kind :=
  match ofRule.lookup rule with
  | some kind => kind
  | none =>
    if rule.endsWith "_statement" then statement
    else if rule.endsWith "_expression" then expr .other
    else other

/-- The category of a node of the grammar. A node without a rule of its own is a token. -/
def ofGrammar (rule : String) (named : Bool) : Kind :=
  if named then ofNamedRule rule else token

/-- Whether a node of this category only carries layout or commentary. -/
def isTrivia : Kind → Bool
  | trivia | comment => true
  | _ => false

/-! ### Written names -/

/-- The categories with their written names. -/
def labels : List (Kind × String) :=
  [ (program, "Program"),
    (namespaceDefinition, "Namespace"),
    (namespaceUse, "NamespaceUse"),
    (classDeclaration, "Class"),
    (classBody, "ClassBody"),
    (baseClause, "BaseClause"),
    (method, "Method"),
    (modifier .visibility, "Modifier(Visibility)"),
    (modifier .static, "Modifier(Static)"),
    (modifier .abstract, "Modifier(Abstract)"),
    (modifier .final, "Modifier(Final)"),
    (modifier .readonly, "Modifier(Readonly)"),
    (parameterList, "ParameterList"),
    (parameter .simple, "Parameter(Simple)"),
    (parameter .variadic, "Parameter(Variadic)"),
    (parameter .promoted, "Parameter(Promoted)"),
    (type, "Type"),
    (name, "Name"),
    (block, "Block"),
    (statement, "Statement"),
    (expr .staticCall, "Expr(StaticCall)"),
    (expr .memberCall, "Expr(MemberCall)"),
    (expr .functionCall, "Expr(FunctionCall)"),
    (expr .closure, "Expr(Closure)"),
    (expr .variable, "Expr(Variable)"),
    (expr .array, "Expr(Array)"),
    (expr (.literal .string), "Expr(Literal(String))"),
    (expr (.literal .interpolatedString), "Expr(Literal(InterpolatedString))"),
    (expr (.literal .integer), "Expr(Literal(Integer))"),
    (expr (.literal .float), "Expr(Literal(Float))"),
    (expr (.literal .boolean), "Expr(Literal(Boolean))"),
    (expr (.literal .null), "Expr(Literal(Null))"),
    (expr .other, "Expr(Other)"),
    (arguments, "Arguments"),
    (argument, "Argument"),
    (comment, "Comment"),
    (trivia, "Trivia"),
    (token, "Token"),
    (other, "Other") ]

/-- The written name of a category. -/
def label (kind : Kind) : String :=
  (labels.lookup kind).getD "Other"

/-- The category with a written name. -/
def ofLabel? (s : String) : Option Kind :=
  (labels.find? (·.2 == s)).map (·.1)

end Kind

end DocBlocks
