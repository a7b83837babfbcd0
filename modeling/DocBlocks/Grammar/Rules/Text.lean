import DocBlocks.Grammar.Rules.Part

/-
  Quoted texts, variables, inclusion, generators and operators.
-/

namespace DocBlocks

/-- The operators that group to the left, with their ranks. -/
def leftOperators : List (Int × Rule) :=
  [(3, .keyword "and"), (1, .keyword "or"), (2, .keyword "xor"), (7, .mark "||"), (8, .mark "&&"),
   (9, .mark "|"), (10, .mark "^"), (11, .mark "&"), (12, .mark "=="), (12, .mark "!="),
   (12, .mark "<>"), (12, .mark "==="), (12, .mark "!=="), (13, .mark "<"), (13, .mark ">"),
   (13, .mark "<="), (13, .mark ">="), (12, .mark "<=>"), (14, .mark "|>"), (16, .mark "<<"),
   (16, .mark ">>"), (17, .mark "+"), (17, .mark "-"), (15, .mark "."), (18, .mark "*"),
   (18, .mark "/"), (18, .mark "%")]

/-- An operator between two operands. -/
def Rule.operation (left operator right : Rule) : Rule :=
  .seq [.role "left" left, .role "operator" operator, .role "right" right]

/-- An operator between two expressions. -/
def Rule.infixed (operator : Rule) : Rule :=
  .operation (.rule "expression") operator (.rule "expression")

/-- What a template is made of. A variable takes the run behind it along. -/
def Rule.templatePart (frame : Frame) : Rule :=
  .choice [.token .escape, .seq [.rule "variable_name", .token (.chunk frame true)],
    .token (.chunk frame false), .rule "template_variable", .rule "template_expression",
    .token .bareEscape]

/-- A text between two frames, the opening one of which may be a byte string. -/
def Rule.framed (quote : Char) (body : Rule) : Rule :=
  .seq [.choice [.token (.byteQuote quote), .mark (String.singleton quote)], body,
    .mark (String.singleton quote)]

/-- The rules for quoted texts, variables and operators. -/
def textRules : List Definition :=
  [ .splice "template_expression" (.braced (.rule "expression")),
    .group "template_member" (
      .ranked 26 none (
        .seq [.role "object" (.rule "variable_name"), .mark "->", .newName])),
    .group "template_negative" (.ranked 0 (some .left) (.seq [.mark "-", .token .integer])),
    .splice "template_index" (
      .choice [.token .integer, .called "unary_op_expression" (.rule "template_negative"),
        .token .given, .rule "variable_name"]),
    .group "template_subscript" (
      .ranked 27 none (.seq [.rule "variable_name", .mark "[", .rule "template_index", .mark "]"])),
    .splice "template_variable" (
      .choice [.called "member_access_expression" (.rule "template_member"),
        .rule "simple_variable",
        .called "subscript_expression" (.rule "template_subscript")]),
    .splice "quoted_body" (.series (.templatePart .doubleQuotes)),
    .splice "heredoc_line" (.series (.templatePart .heredoc)),
    .node "encapsed_string" (
      .ranked 0 (some .right) (.framed '"' (.optional (.rule "quoted_body")))),
    .node "string" (
      .framed '\'' (.many (.choice [.token .plainEscape, .token .plainChunk]))),
    .node "heredoc_body" (
      .seq [.token .newline,
        .series (
          .ranked 0 (some .right) (
            .seq [.optional (.token .newline), .rule "heredoc_line"]))]),
    .node "heredoc" (
      .seq [.mark "<<<",
        .choice [.role "identifier" (.token .label),
          .seq [.mark "\"", .role "identifier" (.token .label), .token (.tight "\"")]],
        .optional (.seq [.role "value" (.rule "heredoc_body"), .token .newline]),
        .role "end_tag" (.token .endLabel)]),
    .node "nowdoc_body" (
      .seq [.token .newline,
        .series (.seq [.optional (.token .newline), .token .rawLine])]),
    .node "nowdoc" (
      .seq [.mark "<<<", .mark "'", .role "identifier" (.token .label), .token (.tight "'"),
        .optional (.seq [.role "value" (.rule "nowdoc_body"), .token .newline]),
        .role "end_tag" (.token .endLabel)]),
    .node "shell_command_expression" (
      .seq [.mark "\x60", .optional (.rule "command_body"), .mark "\x60"]),
    .splice "command_body" (.series (.templatePart .backquotes)),
    .splice "quoted" (
      .choice [.rule "encapsed_string", .rule "string", .rule "heredoc", .rule "nowdoc"]),
    .node "dynamic_variable_name" (
      .choice [.seq [.mark "$", .rule "simple_variable"],
        .seq [.mark "$", .braced (.rule "expression")]]),
    .splice "simple_variable" (.choice [.rule "variable_name", .rule "dynamic_variable_name"]),
    .node "include_expression" (.seq [.keyword "include", .rule "expression"]),
    .node "include_once_expression" (.seq [.keyword "include_once", .rule "expression"]),
    .node "require_expression" (.seq [.keyword "require", .rule "expression"]),
    .node "require_once_expression" (.seq [.keyword "require_once", .rule "expression"]),
    .node "variable_name" (.seq [.mark "$", .token .name]),
    .node "by_ref_variable" (.seq [.mark "&", .rule "variable_name"]),
    .node "by_ref" (.seq [.mark "&", .anyVariable]),
    .node "yield_expression" (
      .ranked 0 (some .right) (
        .choice [.seq [.keyword "yield", .optional (.rule "array_element_initializer")],
          .seq [.token .yieldFrom, .rule "expression"]])),
    .node "array_element_initializer" (
      .ranked 0 (some .right) (
        .choice [.rule "by_ref", .rule "expression",
          .seq [.rule "expression", .mark "=>", .choice [.rule "by_ref", .rule "expression"]],
          .rule "variadic_unpacking"])),
    .node "binary_expression" (.choice
      ([ .ranked 21 none (
           .operation (.rule "unary_expression") (.keyword "instanceof") (.rule "class_reference")),
         .ranked 6 (some .right) (.infixed (.mark "??")),
         .ranked 19 (some .right) (.infixed (.mark "**"))] ++
       leftOperators.map fun (n, op) => .ranked n (some .left) (.infixed op))),
    .group "class_word" (
      .called "name" (.choice [.keyword "self", .keyword "parent", .keyword "static"])),
    .splice "statement_end" (.choice [.token .pause, .mark ";"]) ]

end DocBlocks
