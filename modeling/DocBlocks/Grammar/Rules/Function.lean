import DocBlocks.Grammar.Rules.Part

/-
  Functions, their parameters, and types.
-/

namespace DocBlocks

/-- A type between two bars: an intersection in parentheses, or a simple one. -/
def Rule.disjunct : Rule :=
  .choice [.bracketed (.rule "intersection_type"), .rule "simple_type"]

/-- The ampersand that marks a reference, in its role. -/
def Rule.reference : Rule :=
  .optional (.role "reference_modifier" (.rule "reference_modifier"))

/-- The type in front of a variable. -/
def Rule.typeAhead : Rule := .optional (.role "type" (.rule "type"))

/-- A variable that may be taken by reference. -/
def Rule.referable : Rule :=
  .choice [.called "by_ref" (.rule "by_ref_variable"), .rule "variable_name"]

/-- The parameters of a function. -/
def Rule.parameters : Rule := .role "parameters" (.rule "formal_parameters")

/-- The default of a parameter. -/
def Rule.defaultValue : Rule := .behind "=" (.role "default_value" (.rule "expression"))

/-- The rules for functions, parameters and types. -/
def functionRules : List Definition :=
  [ .node "function_definition" (
      .seq [.attributes, .rule "function_head", .block]),
    .splice "function_head" (
      .seq [.keyword "function", .optional (.rule "reference_modifier"), .role "name" .anyName,
        .parameters, .optional (.rule "return_type")]),
    .node "anonymous_function" (.seq [.rule "closure_head", .block]),
    .node "anonymous_function_use_clause" (
      .seq [.keyword "use", .mark "(", .commas .referable, .optional (.mark ","), .mark ")"]),
    .splice "closure_head" (
      .seq [.attributes, .optional (.role "static_modifier" (.rule "static_modifier")),
        .keyword "function", .reference, .parameters,
        .optional (.rule "anonymous_function_use_clause"), .optional (.rule "return_type")]),
    .splice "arrow_head" (
      .seq [.attributes, .optional (.role "static_modifier" (.rule "static_modifier")),
        .keyword "fn", .reference, .parameters, .optional (.rule "return_type")]),
    .node "arrow_function" (
      .seq [.rule "arrow_head", .mark "=>", .role "body" (.rule "expression")]),
    .node "formal_parameters" (
      .seq [.mark "(",
        .optional (
          .commas (
            .choice [.rule "simple_parameter", .rule "variadic_parameter",
              .rule "property_promotion_parameter"])), .optional (.mark ","), .mark ")"]),
    .node "property_promotion_parameter" (
      .seq [.attributes, .role "visibility" (.rule "visibility_modifier"),
        .optional (.role "readonly" (.rule "readonly_modifier")), .typeAhead,
        .role "name" .referable, .defaultValue, .optional (.rule "property_hook_list")]),
    .node "simple_parameter" (
      .seq [.attributes, .typeAhead, .reference, .role "name" (.rule "variable_name"),
        .defaultValue]),
    .node "variadic_parameter" (
      .seq [.attributes, .typeAhead, .reference, .mark "...",
        .role "name" (.rule "variable_name")]),
    .group "type" (
      .choice [.rule "simple_type", .rule "union_type", .rule "intersection_type",
        .rule "disjunctive_normal_form_type"]),
    .splice "simple_type" (
      .choice [.rule "optional_type", .rule "named_type", .rule "primitive_type"]),
    .node "named_type" (.rule "path"),
    .node "optional_type" (
      .seq [.mark "?", .choice [.rule "named_type", .rule "primitive_type"]]),
    .node "bottom_type" (.silent "never"),
    .node "union_type" (.reluctant (.bars (.rule "simple_type"))),
    .node "intersection_type" (.reluctant (.separated "&" (.rule "simple_type"))),
    .node "disjunctive_normal_form_type" (.reluctant (.bars .disjunct)),
    .node "primitive_type" (
      .choice [.word "array", .keyword "callable", .word "iterable", .word "bool", .word "float",
        .word "int", .word "string", .silent "void", .word "mixed", .silent "false", .word "null",
        .silent "true", .word "object"]),
    .node "cast_type" (
      .choice (
        ["array", "binary", "bool", "boolean", "double", "int", "integer", "float", "object",
          "real", "string", "unset"].map .silent)),
    .splice "return_type" (
      .seq [.mark ":", .role "return_type" (.choice [.rule "type", .rule "bottom_type"])]),
    .node "const_element" (.seq [.anyName, .mark "=", .rule "expression"]) ]

end DocBlocks
