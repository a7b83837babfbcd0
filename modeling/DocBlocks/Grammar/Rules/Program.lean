import DocBlocks.Grammar.Rules.Part

/-
  Sources, the list of statements, namespaces and names.
-/

namespace DocBlocks

/-- The rules for whole sources, statements and names. -/
def programRules : List Definition :=
  [ .node "program" (
      .seq [.optional (.token .markup), .optional (.seq [.token .tag, .statements])]),
    .group "statement" (
      .choice [.rule "empty_statement", .rule "compound_statement", .rule "named_label_statement",
        .rule "expression_statement", .rule "if_statement", .rule "switch_statement",
        .rule "while_statement", .rule "do_statement", .rule "for_statement",
        .rule "foreach_statement", .rule "goto_statement", .rule "continue_statement",
        .rule "break_statement", .rule "return_statement", .rule "try_statement",
        .rule "declare_statement", .rule "echo_statement", .rule "exit_statement",
        .rule "unset_statement", .rule "const_declaration", .rule "function_definition",
        .rule "class_declaration", .rule "interface_declaration", .rule "trait_declaration",
        .rule "enum_declaration", .rule "namespace_definition", .rule "namespace_use_declaration",
        .rule "global_declaration", .rule "function_static_declaration"]),
    .node "empty_statement" (.ranked (-1) none (.mark ";")),
    .node "reference_modifier" (.mark "&"),
    .node "function_static_declaration" (
      .seq [.keyword "static", .commas (.rule "static_variable_declaration"), .statementEnd]),
    .node "static_variable_declaration" (
      .seq [.role "name" (.rule "variable_name"),
        .behind "=" (.role "value" (.rule "expression"))]),
    .node "global_declaration" (
      .seq [.keyword "global", .commas (.rule "simple_variable"), .statementEnd]),
    .node "namespace_definition" (
      .seq [.keyword "namespace",
        .choice [.seq [.role "name" (.rule "namespace_name"), .statementEnd],
          .seq [.optional (.role "name" (.rule "namespace_name")), .block]]]),
    .node "namespace_use_declaration" (
      .seq [.keyword "use",
        .choice [.commas (.rule "namespace_use_clause"),
          .seq [.optional (.role "type" (.rule "import_sort")), .rule "namespace_name", .mark "\\",
            .role "body" (.rule "namespace_use_group")]], .statementEnd]),
    .node "namespace_use_clause" (
      .seq [.optional (.role "type" (.rule "import_sort")),
        .choice [.anyName, .rule "qualified_name"],
        .optional (.seq [.keyword "as", .role "alias" (.token .given)])]),
    .group "import_sort" (.choice [.keyword "function", .keyword "const"]),
    .node "qualified_name" (
      .ranked 1 none (
        .seq [
          .role "prefix" (
            .seq [.optional (.mark "\\"), .optional (.rule "namespace_name"), .mark "\\"]),
          .token .name])),
    .node "relative_name" (
      .ranked 1 none (
        .seq [
          .role "prefix" (
            .seq [.keyword "namespace", .optional (.seq [.mark "\\", .rule "namespace_name"]),
              .mark "\\"]),
          .token .name])),
    .splice "path" (.choice [.token .name, .rule "qualified_name", .rule "relative_name"]),
    .node "namespace_name" (
      .seq [.token .name, .many (.seq [.mark "\\", .token .name])]),
    .node "namespace_use_group" (.braced (.commas (.rule "namespace_use_clause"))) ]

end DocBlocks
