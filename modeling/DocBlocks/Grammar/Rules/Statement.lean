import DocBlocks.Grammar.Rules.Part

/-
  Statements.
-/

namespace DocBlocks

/-- The two signs behind the value of a case. -/
def Rule.caseSign : Rule := .choice [.mark ":", .mark ";"]

/-- The cases of a choice by value. -/
def Rule.cases : Rule := .many (.choice [.rule "case_statement", .rule "default_statement"])

/-- The rules for statements. -/
def statementRules : List Definition :=
  [ .node "echo_statement" (.seq [.keyword "echo", .rule "expressions", .statementEnd]),
    .node "exit_statement" (
      .seq [.keyword "exit", .optional (.bracketed (.optional (.rule "expression"))),
        .statementEnd]),
    .node "unset_statement" (
      .seq [.word "unset", .mark "(", .commas .anyVariable, .optional (.mark ","), .mark ")",
        .statementEnd]),
    .node "declare_statement" (
      .seq [.keyword "declare", .bracketed (.rule "declare_directive"),
        .choice [.rule "statement",
          .seq [.mark ":", .statements, .keyword "enddeclare", .statementEnd], .statementEnd]]),
    .node "declare_directive" (
      .seq [.choice [.word "ticks", .word "encoding", .word "strict_types"], .mark "=",
        .rule "literal"]),
    .group "literal" (
      .choice [.token .integer, .token .float, .rule "quoted", .rule "boolean", .rule "null"]),
    .node "boolean" (.token .boolean),
    .node "null" (.silent "null"),
    .node "try_statement" (
      .seq [.keyword "try", .block,
        .series (.choice [.rule "catch_clause", .rule "finally_clause"])]),
    .node "catch_clause" (
      .seq [.keyword "catch",
        .bracketed (
          .seq [.role "type" (.rule "type_list"),
            .optional (.role "name" (.rule "variable_name"))]), .block]),
    .node "type_list" (.bars (.rule "named_type")),
    .node "finally_clause" (.seq [.keyword "finally", .block]),
    .node "goto_statement" (.seq [.keyword "goto", .token .given, .statementEnd]),
    .node "continue_statement" (
      .seq [.keyword "continue", .optional (.rule "expression"), .statementEnd]),
    .node "break_statement" (
      .seq [.keyword "break", .optional (.rule "expression"), .statementEnd]),
    .node "return_statement" (
      .seq [.keyword "return", .optional (.rule "expression"), .statementEnd]),
    .node "throw_expression" (.seq [.keyword "throw", .rule "expression"]),
    .node "while_statement" (
      .seq [.keyword "while", .condition,
        .choice [.body, .seq [.colonBody, .keyword "endwhile", .statementEnd]]]),
    .node "do_statement" (
      .seq [.keyword "do", .body, .keyword "while", .condition, .statementEnd]),
    .node "for_statement" (
      .seq [.keyword "for", .mark "(", .optional (.role "initialize" (.rule "expressions")),
        .mark ";", .optional (.role "condition" (.rule "expressions")), .mark ";",
        .optional (.role "update" (.rule "expressions")), .mark ")",
        .choice [.statementEnd, .body,
          .seq [.mark ":", .role "body" .statements, .keyword "endfor", .statementEnd]]]),
    .splice "expressions" (.choice [.rule "expression", .rule "sequence_expression"]),
    .node "sequence_expression" (
      .ranked (-1) none (
        .seq [.rule "expression", .mark ",",
          .choice [.rule "sequence_expression", .rule "expression"]])),
    .node "foreach_statement" (
      .seq [.keyword "foreach", .mark "(", .rule "expression", .keyword "as",
        .choice [.called "pair" (.rule "foreach_pair"), .rule "foreach_value"], .mark ")",
        .choice [.statementEnd, .body, .seq [.colonBody, .keyword "endforeach", .statementEnd]]]),
    .node "foreach_pair" (.seq [.rule "expression", .mark "=>", .rule "foreach_value"]),
    .splice "foreach_value" (.choice [.rule "by_ref", .rule "expression", .rule "list_literal"]),
    .node "if_statement" (
      .ranked 0 (some .left) (
        .seq [.keyword "if", .condition,
          .choice [
            .seq [.body, .many (.role "alternative" (.rule "else_if_clause")),
              .optional (.role "alternative" (.rule "else_clause"))],
            .seq [.colonBody,
              .many (.role "alternative" (.called "else_if_clause" (.rule "else_if_colon_clause"))),
              .optional (.role "alternative" (.called "else_clause" (.rule "else_colon_clause"))),
              .keyword "endif", .statementEnd]]])),
    .node "colon_block" (.seq [.mark ":", .statements]),
    .node "else_if_clause" (.seq [.keyword "elseif", .condition, .body]),
    .node "else_clause" (.seq [.keyword "else", .body]),
    .node "else_if_colon_clause" (.seq [.keyword "elseif", .condition, .colonBody]),
    .node "else_colon_clause" (.seq [.keyword "else", .colonBody]),
    .node "match_expression" (
      .seq [.keyword "match", .condition, .role "body" (.rule "match_block")]),
    .node "match_block" (
      .ranked 0 (some .left) (
        .seq [.mark "\x7b",
          .optional (
            .commas (
              .choice [.rule "match_conditional_expression", .rule "match_default_expression"])),
          .optional (.mark ","), .mark "\x7d"])),
    .node "match_condition_list" (.seq [.commas (.rule "expression"), .optional (.mark ",")]),
    .node "match_conditional_expression" (
      .seq [.role "conditional_expressions" (.rule "match_condition_list"), .mark "=>",
        .role "return_expression" (.rule "expression")]),
    .node "match_default_expression" (
      .seq [.keyword "default", .mark "=>", .role "return_expression" (.rule "expression")]),
    .node "switch_statement" (
      .seq [.keyword "switch", .condition, .role "body" (.rule "switch_block")]),
    .node "switch_block" (
      .choice [.braced .cases, .seq [.mark ":", .cases, .keyword "endswitch", .statementEnd]]),
    .node "case_statement" (
      .seq [.keyword "case", .role "value" (.rule "expression"), .caseSign, .statements]),
    .node "default_statement" (.seq [.keyword "default", .caseSign, .statements]),
    .node "compound_statement" (.braced .statements),
    .node "named_label_statement" (.seq [.token .name, .mark ":"]),
    .node "expression_statement" (.seq [.rule "expression", .statementEnd]) ]

end DocBlocks
