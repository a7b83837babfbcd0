import DocBlocks.Grammar.Rules.Part

/-
  Classes, interfaces, traits and enums, and what stands in them.
-/

namespace DocBlocks

/-- The rules for classes, interfaces, traits and enums. -/
def declarationRules : List Definition :=
  [ .node "trait_declaration" (
      .seq [.attributes, .keyword "trait", .newName, .role "body" (.rule "declaration_list")]),
    .node "interface_declaration" (
      .seq [.attributes, .keyword "interface", .newName, .optional (.rule "base_clause"),
        .role "body" (.rule "declaration_list")]),
    .node "base_clause" (.seq [.keyword "extends", .commas .anyPath]),
    .node "enum_declaration" (
      .ranked 0 (some .right) (
        .seq [.attributes, .keyword "enum", .newName,
          .behind ":" (.called "primitive_type" (.choice [.word "string", .word "int"])),
          .optional (.rule "class_interface_clause"),
          .role "body" (.rule "enum_declaration_list")])),
    .node "enum_declaration_list" (.braced (.many (.rule "enum_member"))),
    .splice "enum_member" (
      .choice [.rule "enum_case", .rule "const_declaration", .rule "method_declaration",
        .rule "use_declaration"]),
    .node "enum_case" (
      .seq [.attributes, .keyword "case", .role "name" .anyName,
        .behind "=" (.role "value" (.rule "expression")), .statementEnd]),
    .node "class_declaration" (
      .ranked 0 (some .right) (
        .seq [.attributes, .modifiers, .keyword "class", .newName, .optional (.rule "base_clause"),
          .optional (.rule "class_interface_clause"), .role "body" (.rule "declaration_list"),
          .optional .statementEnd])),
    .node "declaration_list" (.braced (.many (.rule "member"))),
    .node "final_modifier" (.keyword "final"),
    .node "abstract_modifier" (.keyword "abstract"),
    .node "readonly_modifier" (.keyword "readonly"),
    .node "class_interface_clause" (.seq [.keyword "implements", .commas .anyPath]),
    .splice "member" (
      .choice [.rule "const_declaration", .rule "property_declaration",
        .rule "method_declaration", .rule "use_declaration"]),
    .node "const_declaration" (
      .seq [.attributes, .modifiers, .keyword "const",
        .optional (.role "type" (.rule "type")), .commas (.rule "const_element"), .statementEnd]),
    .node "property_declaration" (
      .seq [.attributes, .series (.rule "modifier"), .optional (.role "type" (.rule "type")),
        .commas (.rule "property_element"),
        .choice [.statementEnd, .rule "property_hook_list"]]),
    .splice "modifier" (
      .ranked 0 (some .left) (
        .choice [.rule "var_modifier", .rule "visibility_modifier", .rule "static_modifier",
          .rule "final_modifier", .rule "abstract_modifier", .rule "readonly_modifier"])),
    .node "property_element" (
      .seq [.role "name" (.rule "variable_name"),
        .behind "=" (.role "default_value" (.rule "expression"))]),
    .node "property_hook_list" (.braced (.many (.rule "property_hook"))),
    .node "property_hook" (
      .seq [.attributes, .optional (.role "final" (.rule "final_modifier")),
        .optional (.role "reference_modifier" (.rule "reference_modifier")), .token .given,
        .optional (.role "parameters" (.rule "formal_parameters")), .rule "property_hook_body"]),
    .group "property_hook_body" (
      .choice [.seq [.mark "=>", .role "body" (.rule "expression"), .statementEnd],
        .block, .statementEnd]),
    .node "method_declaration" (
      .seq [.attributes, .modifiers, .rule "function_head",
        .choice [.block, .statementEnd]]),
    .node "var_modifier" (.silent "var"),
    .node "static_modifier" (.keyword "static"),
    .node "use_declaration" (
      .seq [.keyword "use", .commas .anyPath, .choice [.rule "use_list", .statementEnd]]),
    .node "use_list" (
      .braced (
        .many (
          .seq [.choice [.rule "use_instead_of_clause", .rule "use_as_clause"],
            .statementEnd]))),
    .node "use_instead_of_clause" (
      .ranked 0 (some .left) (
        .seq [.rule "class_constant_access_expression", .keyword "insteadof", .token .given])),
    .node "use_as_clause" (
      .seq [.choice [.rule "class_constant_access_expression", .token .name], .keyword "as",
        .choice [.seq [.optional (.rule "visibility_modifier"), .token .given],
          .seq [.rule "visibility_modifier", .optional (.token .given)]]]),
    .node "visibility_modifier" (
      .seq [.choice [.keyword "public", .keyword "protected", .keyword "private"],
        .optional (
          .seq [.token (.tight "("),
            .called "operation" (.choice [.keyword "get", .keyword "set"]), .mark ")"])]) ]

end DocBlocks
