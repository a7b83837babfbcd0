import DocBlocks.Grammar.Rules.Part

/-
  Expressions, and attributes, which hold arguments.
-/

namespace DocBlocks

/-- The signs that count a variable up or down. -/
def Rule.stepSign : Rule := .role "operator" (.choice [.mark "++", .mark "--"])

/-- What is reached in an object through an arrow. -/
def Rule.memberBehind (object arrow : String) : Rule :=
  .seq [.role "object" (.rule object), .mark arrow, .rule "member_name"]

/-- A value assigned to a variable or to the variables of a pattern. -/
def Rule.assigned (signs : List Rule) : Rule :=
  .seq ([.role "left" (.choice [.anyVariable, .rule "list_literal"])] ++ signs ++
    [.role "right" (.rule "expression")])

/-- What the elements of a pattern can be. -/
def Rule.patternElement (pattern : String) : Rule :=
  let target : Rule :=
    .choice [.called "list_literal" (.rule pattern), .anyVariable, .rule "by_ref"]
  .choice [target, .seq [.rule "expression", .mark "=>", target]]

/-- The elements of an array. -/
def Rule.elements : Rule :=
  .seq [.optional (.commas (.rule "array_element_initializer")), .optional (.mark ",")]

/-- The words that can label an argument though they also begin expressions. -/
def Rule.labelWord : Rule :=
  .called "name" (
    .choice ((["array", "fn", "function", "match", "namespace", "null", "static", "throw",
      "parent", "self"].map .keyword) ++ [.token .boolean]))

/-- The rules for expressions. -/
def expressionRules : List Definition :=
  [ .group "expression" (
      .choice [.rule "conditional_expression", .rule "match_expression",
        .rule "augmented_assignment_expression", .rule "assignment_expression",
        .rule "reference_assignment_expression", .rule "yield_expression",
        .rule "unary_expression", .rule "error_suppression_expression", .rule "binary_expression",
        .rule "include_expression", .rule "include_once_expression", .rule "require_expression",
        .rule "require_once_expression"]),
    .splice "unary_expression" (
      .choice [.rule "clone_expression", .rule "primary_expression", .rule "unary_op_expression",
        .rule "cast_expression"]),
    .node "unary_op_expression" (
      .ranked 20 (some .left) (
        .seq [.role "operator" (.choice [.mark "+", .mark "-", .mark "~", .mark "!"]),
          .role "argument" (.rule "expression")])),
    .node "error_suppression_expression" (
      .ranked 22 none (.seq [.mark "@", .rule "expression"])),
    .node "clone_expression" (.seq [.keyword "clone", .rule "primary_expression"]),
    .group "primary_expression" (
      .choice [.anyVariable, .rule "literal", .rule "class_constant_access_expression",
        .rule "path", .rule "array_creation_expression", .rule "print_intrinsic",
        .rule "anonymous_function", .rule "arrow_function",
        .called "object_creation_expression" (.rule "complete_creation"),
        .called "object_creation_expression" (.rule "bare_creation"),
        .rule "update_expression", .rule "shell_command_expression",
        .rule "parenthesized_expression", .rule "throw_expression"]),
    .node "parenthesized_expression" (.bracketed (.rule "expression")),
    .node "class_constant_access_expression" (
      .seq [.rule "scope", .mark "::",
        .choice [.anyName, .braced (.called "name" (.rule "expression"))]]),
    .node "print_intrinsic" (.seq [.keyword "print", .rule "expression"]),
    .group "complete_creation" (
      .ranked 24 (some .right) (
        .seq [.keyword "new",
          .choice [.seq [.rule "class_reference", .rule "arguments"], .rule "anonymous_class"]])),
    .group "bare_creation" (
      .ranked 24 (some .right) (.seq [.keyword "new", .rule "class_reference"])),
    .node "anonymous_class" (
      .ranked 0 (some .right) (
        .seq [.attributes, .modifiers, .keyword "class", .optional (.rule "arguments"),
          .optional (.rule "base_clause"), .optional (.rule "class_interface_clause"),
          .role "body" (.rule "declaration_list")])),
    .splice "class_reference" (
      .choice [.anyPath, .rule "class_variable", .rule "parenthesized_expression"]),
    .splice "class_variable" (
      .ranked 1 none (
        .choice [.called "subscript_expression" (.rule "class_subscript"),
          .called "member_access_expression" (.rule "class_member"),
          .called "nullsafe_member_access_expression" (.rule "class_nullsafe_member"),
          .called "scoped_property_access_expression" (.rule "class_static_member"),
          .rule "simple_variable"])),
    .node "class_subscript" (
      .ranked 1 none (
        .seq [.rule "class_variable", .mark "[", .optional (.rule "expression"), .mark "]"])),
    .node "class_member" (.ranked 1 none (.memberBehind "class_variable" "->")),
    .node "class_nullsafe_member" (.ranked 1 none (.memberBehind "class_variable" "?->")),
    .node "class_static_member" (
      .ranked 1 none (
        .seq [.role "scope" (.choice [.anyPath, .rule "class_variable"]), .mark "::",
          .role "name" (.rule "simple_variable")])),
    .node "update_expression" (
      .ranked 22 (some .left) (
        .choice [.seq [.role "argument" .anyVariable, .stepSign],
          .seq [.stepSign, .role "argument" .anyVariable]])),
    .node "cast_expression" (
      .ranked (-1) none (
        .seq [.bracketed (.role "type" (.rule "cast_type")),
          .role "value" (
            .choice [.rule "unary_expression", .rule "include_expression",
              .rule "include_once_expression", .rule "error_suppression_expression"])])),
    .node "cast_variable" (
      .ranked (-1) none (
        .seq [.bracketed (.role "type" (.rule "cast_type")), .role "value" .anyVariable])),
    .node "assignment_expression" (.ranked 4 (some .right) (.assigned [.mark "="])),
    .node "reference_assignment_expression" (
      .ranked 4 (some .right) (.assigned [.mark "=", .mark "&"])),
    .node "conditional_expression" (
      .ranked 5 (some .left) (
        .seq [.role "condition" (.rule "expression"), .mark "?",
          .optional (.role "body" (.rule "expression")), .mark ":",
          .role "alternative" (.rule "expression")])),
    .node "augmented_assignment_expression" (
      .ranked 4 (some .right) (
        .seq [.role "left" .anyVariable,
          .role "operator" (
            .choice (
              ["**=", "*=", "/=", "%=", "+=", "-=", ".=", "<<=", ">>=", "&=", "^=", "|=",
                "??="].map .mark)),
          .role "right" (.rule "expression")])),
    .node "member_access_expression" (
      .ranked 26 none (.memberBehind "dereferencable_expression" "->")),
    .node "nullsafe_member_access_expression" (
      .ranked 26 none (.memberBehind "dereferencable_expression" "?->")),
    .node "scoped_property_access_expression" (
      .ranked 26 none (
        .seq [.role "scope" (.rule "scope"), .mark "::", .role "name" (.rule "simple_variable")])),
    .node "list_literal" (.choice [.rule "list_pattern", .rule "array_pattern"]),
    .group "list_pattern" (
      .seq [.keyword "list", .bracketed (.commas (.optional (.patternElement "list_pattern")))]),
    .group "array_pattern" (
      .seq [.mark "[", .commas (.optional (.rule "array_pattern_element")), .mark "]"]),
    .splice "array_pattern_element" (.patternElement "array_pattern"),
    .splice "callable_variable" (
      .choice [.rule "simple_variable", .rule "subscript_expression",
        .rule "member_call_expression", .rule "nullsafe_member_call_expression",
        .rule "scoped_call_expression", .rule "function_call_expression"]),
    .node "function_call_expression" (
      .ranked 25 none (
        .seq [.role "function" (.choice [.anyPath, .rule "callable_expression"]),
          .role "arguments" (.rule "arguments")])),
    .splice "callable_expression" (
      .choice [.rule "callable_variable", .rule "parenthesized_expression",
        .rule "array_creation_expression",
        .called "object_creation_expression" (.rule "complete_creation"), .rule "quoted"]),
    .node "scoped_call_expression" (
      .ranked 25 none (
        .seq [.role "scope" (.rule "scope"), .mark "::", .rule "member_name",
          .role "arguments" (.rule "arguments")])),
    .splice "scope" (
      .choice [.rule "relative_scope", .rule "path", .rule "dereferencable_expression"]),
    .node "relative_scope" (
      .ranked 23 none (.choice [.keyword "self", .keyword "parent", .keyword "static"])),
    .node "variadic_placeholder" (.mark "..."),
    .node "arguments" (
      .bracketed (
        .optional (
          .choice [.seq [.commas (.rule "argument"), .optional (.mark ",")],
            .rule "variadic_placeholder"]))),
    .node "argument" (
      .seq [.optional (.rule "argument_label"),
        .optional (.role "reference_modifier" (.rule "reference_modifier")),
        .choice [.rule "class_word", .rule "variadic_unpacking", .rule "expression"]]),
    .splice "argument_label" (
      .seq [.role "name" (.choice [.token .name, .labelWord]), .mark ":"]),
    .node "member_call_expression" (
      .ranked 25 none (
        .seq [.memberBehind "dereferencable_expression" "->",
          .role "arguments" (.rule "arguments")])),
    .node "nullsafe_member_call_expression" (
      .ranked 25 none (
        .seq [.memberBehind "dereferencable_expression" "?->",
          .role "arguments" (.rule "arguments")])),
    .node "variadic_unpacking" (.seq [.mark "...", .rule "expression"]),
    .group "member_name" (
      .choice [.role "name" (.choice [.rule "class_word", .token .name, .rule "simple_variable"]),
        .braced (.role "name" (.rule "expression"))]),
    .node "subscript_expression" (
      .seq [.rule "dereferencable_expression", .mark "[", .optional (.rule "expression"),
        .mark "]"]),
    .splice "dereferencable_expression" (
      .ranked 27 none (
        .choice [.anyVariable, .rule "class_constant_access_expression",
          .rule "parenthesized_expression", .rule "array_creation_expression",
          .called "object_creation_expression" (.rule "complete_creation"), .rule "path",
          .rule "quoted"])),
    .node "array_creation_expression" (
      .choice [.seq [.keyword "array", .bracketed .elements],
        .reluctant (.seq [.mark "[", .elements, .mark "]"])]),
    .node "attribute_group" (
      .seq [.mark "#[", .commas (.rule "attribute"), .optional (.mark ","), .mark "]"]),
    .node "attribute_list" (.series (.rule "attribute_group")),
    .node "attribute" (
      .seq [.anyPath, .optional (.role "parameters" (.rule "arguments"))]) ]

end DocBlocks
