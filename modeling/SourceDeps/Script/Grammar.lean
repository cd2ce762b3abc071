import SourceDeps.Grammar.Rule

namespace SourceDeps.Script

open SourceDeps.Grammar SourceDeps.Grammar.Rule

def leftBrace : Rule := token "\x7b"

def rightBrace : Rule := token "\x7d"

def parens (body : List Rule) : Rule := seq ([token "("] ++ body ++ [token ")"])

def braces (body : List Rule) : Rule := seq ([leftBrace] ++ body ++ [rightBrace])

/-- A name, or a keyword that may serve as one, under a new name. -/
def nameAs (name : String) : Rule :=
  renamed name (choice [ref "identifier", ref "_reserved_identifier"])

/-- A keyword that may serve as a name. -/
def reservedName : Rule := renamed "identifier" (ref "_reserved_identifier")

/-- The declared names after `var`, `let` or `const`. -/
def declarators : Rule := commaSep1 (ref "variable_declarator")

/-- What a declaration binds: a name or a pattern. -/
def binding : Rule := choice [ref "identifier", ref "_destructuring_pattern"]

def decorators : Rule := many (labelled "decorator" (ref "decorator"))

def body : Rule := labelled "body" (ref "statement")

def blockBody : Rule := labelled "body" (ref "statement_block")

/-- A step by one, up or down. -/
def step : Rule := choice [token "++", token "--"]

def moduleRules : List (String × Rule) := [
  ("program", seq [optional (ref "hash_bang_line"), many (ref "statement")]),
  ("hash_bang_line", token "hash_bang_line"),
  ("export_statement", choice [
    seq [
      token "export",
      choice [
        seq [token "*", ref "_from_clause"],
        seq [ref "namespace_export", ref "_from_clause"],
        seq [ref "export_clause", ref "_from_clause"],
        ref "export_clause"],
      ref "_semicolon"],
    seq [
      decorators,
      token "export",
      choice [
        labelled "declaration" (ref "declaration"),
        seq [
          token "default",
          choice [
            labelled "declaration" (ref "declaration"),
            seq [labelled "value" (ref "expression"), ref "_semicolon"]]]]]]),
  ("namespace_export", seq [token "*", token "as", ref "_module_export_name"]),
  ("export_clause", braces [commaSep (ref "export_specifier"), optional (token ",")]),
  ("export_specifier", seq [
    labelled "name" (ref "_module_export_name"),
    optional (seq [token "as", labelled "alias" (ref "_module_export_name")])]),
  ("_module_export_name", choice [ref "identifier", ref "string"]),
  ("declaration", choice [
    ref "function_declaration",
    ref "generator_function_declaration",
    ref "class_declaration",
    ref "lexical_declaration",
    ref "variable_declaration"]),
  ("import", token "import"),
  ("import_statement", seq [
    token "import",
    choice [
      seq [ref "import_clause", ref "_from_clause"],
      labelled "source" (ref "string")],
    optional (ref "import_attribute"),
    ref "_semicolon"]),
  ("import_clause", choice [
    ref "namespace_import",
    ref "named_imports",
    seq [
      ref "identifier",
      optional (seq [token ",", choice [ref "namespace_import", ref "named_imports"]])]]),
  ("_from_clause", seq [token "from", labelled "source" (ref "string")]),
  ("namespace_import", seq [token "*", token "as", ref "identifier"]),
  ("named_imports", braces [commaSep (ref "import_specifier"), optional (token ",")]),
  ("import_specifier", choice [
    labelled "name" (ref "identifier"),
    seq [
      labelled "name" (ref "_module_export_name"),
      token "as",
      labelled "alias" (ref "identifier")]]),
  ("import_attribute", seq [token "with", ref "object"])]

def statementRules : List (String × Rule) := [
  ("statement", choice [
    ref "export_statement",
    ref "import_statement",
    ref "debugger_statement",
    ref "expression_statement",
    ref "declaration",
    ref "statement_block",
    ref "if_statement",
    ref "switch_statement",
    ref "for_statement",
    ref "for_in_statement",
    ref "while_statement",
    ref "do_statement",
    ref "try_statement",
    ref "with_statement",
    ref "break_statement",
    ref "continue_statement",
    ref "return_statement",
    ref "throw_statement",
    ref "empty_statement",
    ref "labeled_statement"]),
  ("expression_statement", seq [ref "_expressions", ref "_semicolon"]),
  ("variable_declaration", seq [token "var", declarators, ref "_semicolon"]),
  ("lexical_declaration", seq [
    labelled "kind" (choice [token "let", token "const"]), declarators, ref "_semicolon"]),
  ("variable_declarator", seq [labelled "name" binding, optional (ref "_initializer")]),
  ("statement_block", rightAssoc (seq [
    leftBrace, many (ref "statement"), rightBrace, optional (token "_automatic_semicolon")])),
  ("else_clause", seq [token "else", ref "statement"]),
  ("if_statement", rightAssoc (seq [
    token "if",
    labelled "condition" (ref "parenthesized_expression"),
    labelled "consequence" (ref "statement"),
    optional (labelled "alternative" (ref "else_clause"))])),
  ("switch_statement", seq [
    token "switch",
    labelled "value" (ref "parenthesized_expression"),
    labelled "body" (ref "switch_body")]),
  ("for_statement", seq [
    token "for",
    token "(",
    choice [
      labelled "initializer" (choice [ref "lexical_declaration", ref "variable_declaration"]),
      seq [labelled "initializer" (ref "_expressions"), token ";"],
      labelled "initializer" (ref "empty_statement")],
    choice [
      seq [labelled "condition" (ref "_expressions"), token ";"],
      labelled "condition" (ref "empty_statement")],
    labelled "increment" (optional (ref "_expressions")),
    token ")",
    body]),
  ("for_in_statement", seq [
    token "for", optional (token "await"), ref "_for_header", body]),
  ("_for_header", seq [
    token "(",
    choice [
      labelled "left" (choice [ref "_lhs_expression", ref "parenthesized_expression"]),
      seq [
        labelled "kind" (token "var"), labelled "left" binding, optional (ref "_initializer")],
      seq [
        labelled "kind" (choice [token "let", token "const"]),
        labelled "left" binding,
        optional (token "_automatic_semicolon")]],
    labelled "operator" (choice [token "in", token "of"]),
    labelled "right" (ref "_expressions"),
    token ")"]),
  ("while_statement", seq [
    token "while", labelled "condition" (ref "parenthesized_expression"), body]),
  ("do_statement", rightAssoc (seq [
    token "do", body, token "while", labelled "condition" (ref "parenthesized_expression"),
    optional (ref "_semicolon")])),
  ("try_statement", seq [
    token "try",
    blockBody,
    optional (labelled "handler" (ref "catch_clause")),
    optional (labelled "finalizer" (ref "finally_clause"))]),
  ("with_statement", seq [
    token "with", labelled "object" (ref "parenthesized_expression"), body]),
  ("break_statement", seq [
    token "break",
    optional (labelled "label" (renamed "statement_identifier" (ref "identifier"))),
    ref "_semicolon"]),
  ("continue_statement", seq [
    token "continue",
    optional (labelled "label" (renamed "statement_identifier" (ref "identifier"))),
    ref "_semicolon"]),
  ("debugger_statement", seq [token "debugger", ref "_semicolon"]),
  ("return_statement", seq [token "return", optional (ref "_expressions"), ref "_semicolon"]),
  ("throw_statement", seq [token "throw", ref "_expressions", ref "_semicolon"]),
  ("empty_statement", token ";"),
  ("labeled_statement", weighted (-1) (seq [
    labelled "label" (nameAs "statement_identifier"), token ":", body])),
  ("switch_body", braces [many (choice [ref "switch_case", ref "switch_default"])]),
  ("switch_case", seq [
    token "case",
    labelled "value" (ref "_expressions"),
    token ":",
    labelled "body" (many (ref "statement"))]),
  ("switch_default", seq [
    token "default", token ":", labelled "body" (many (ref "statement"))]),
  ("catch_clause", seq [
    token "catch", optional (parens [labelled "parameter" binding]), blockBody]),
  ("finally_clause", seq [token "finally", blockBody]),
  ("parenthesized_expression", parens [ref "_expressions"])]

def expressionRules : List (String × Rule) := [
  ("_expressions", choice [ref "expression", ref "sequence_expression"]),
  ("expression", choice [
    ref "primary_expression",
    ref "_jsx_element",
    ref "assignment_expression",
    ref "augmented_assignment_expression",
    ref "await_expression",
    ref "unary_expression",
    ref "binary_expression",
    ref "ternary_expression",
    ref "update_expression",
    ref "new_expression",
    ref "yield_expression"]),
  ("primary_expression", choice [
    ref "subscript_expression",
    ref "member_expression",
    ref "parenthesized_expression",
    ref "_identifier",
    reservedName,
    ref "this",
    ref "super",
    ref "number",
    ref "string",
    ref "template_string",
    ref "regex",
    ref "true",
    ref "false",
    ref "null",
    ref "object",
    ref "array",
    ref "function_expression",
    ref "arrow_function",
    ref "generator_function",
    ref "class",
    ref "meta_property",
    ref "call_expression"]),
  ("yield_expression", rightAssoc (seq [
    token "yield",
    choice [
      seq [token "*", ref "expression"],
      optional (ref "expression")]])),
  ("object", binds "object" (braces [
    commaSep (optional (choice [
      ref "pair",
      ref "spread_element",
      ref "method_definition",
      nameAs "shorthand_property_identifier"]))])),
  ("object_pattern", binds "object" (braces [
    commaSep (optional (choice [
      ref "pair_pattern",
      ref "rest_pattern",
      ref "object_assignment_pattern",
      nameAs "shorthand_property_identifier_pattern"]))])),
  ("assignment_pattern", seq [
    labelled "left" (ref "pattern"), token "=", labelled "right" (ref "expression")]),
  ("object_assignment_pattern", seq [
    labelled "left" (choice [
      renamed "shorthand_property_identifier_pattern"
        (choice [ref "_reserved_identifier", ref "identifier"]),
      ref "_destructuring_pattern"]),
    token "=",
    labelled "right" (ref "expression")]),
  ("array", seq [
    token "[",
    commaSep (optional (choice [ref "expression", ref "spread_element"])),
    token "]"]),
  ("array_pattern", seq [
    token "[",
    commaSep (optional (choice [ref "pattern", ref "assignment_pattern"])),
    token "]"])]

def elementRules : List (String × Rule) := [
  ("_jsx_element", choice [ref "jsx_element", ref "jsx_self_closing_element"]),
  ("jsx_element", seq [
    labelled "open_tag" (ref "jsx_opening_element"),
    many (ref "_jsx_child"),
    labelled "close_tag" (ref "jsx_closing_element")]),
  ("html_character_reference", token "html_character_reference"),
  ("jsx_expression", braces [
    optional (choice [ref "expression", ref "sequence_expression", ref "spread_element"])]),
  ("_jsx_child", choice [
    token "jsx_text",
    ref "html_character_reference",
    ref "_jsx_element",
    ref "jsx_expression"]),
  ("jsx_opening_element", weighted (-1) (seq [
    token "<",
    optional (seq [
      labelled "name" (ref "_jsx_element_name"),
      many (labelled "attribute" (ref "_jsx_attribute"))]),
    token ">"])),
  ("jsx_identifier", token "jsx_identifier"),
  ("_jsx_identifier", choice [
    renamed "identifier" (ref "jsx_identifier"),
    ref "identifier"]),
  ("nested_identifier", binds "member" (seq [
    labelled "object" (choice [
      ref "identifier",
      renamed "member_expression" (ref "nested_identifier")]),
    token ".",
    labelled "property" (renamed "property_identifier" (ref "identifier"))])),
  ("jsx_namespace_name", seq [ref "_jsx_identifier", token ":", ref "_jsx_identifier"]),
  ("_jsx_element_name", choice [
    ref "_jsx_identifier",
    renamed "member_expression" (ref "nested_identifier"),
    ref "jsx_namespace_name"]),
  ("jsx_closing_element", seq [
    token "</", optional (labelled "name" (ref "_jsx_element_name")), token ">"]),
  ("jsx_self_closing_element", seq [
    token "<",
    labelled "name" (ref "_jsx_element_name"),
    many (labelled "attribute" (ref "_jsx_attribute")),
    token "/>"]),
  ("_jsx_attribute", choice [ref "jsx_attribute", ref "jsx_expression"]),
  ("_jsx_attribute_name", choice [
    renamed "property_identifier" (ref "_jsx_identifier"),
    ref "jsx_namespace_name"]),
  ("jsx_attribute", seq [
    ref "_jsx_attribute_name",
    optional (seq [token "=", ref "_jsx_attribute_value"])]),
  ("_jsx_string", choice [
    seq [
      token "\"",
      many (choice [
        renamed "string_fragment" (ref "unescaped_double_jsx_string_fragment"),
        ref "html_character_reference"]),
      token "\""],
    seq [
      token "'",
      many (choice [
        renamed "string_fragment" (ref "unescaped_single_jsx_string_fragment"),
        ref "html_character_reference"]),
      token "'"]]),
  ("unescaped_double_jsx_string_fragment", token "unescaped_double_jsx_string_fragment"),
  ("unescaped_single_jsx_string_fragment", token "unescaped_single_jsx_string_fragment"),
  ("_jsx_attribute_value", choice [
    renamed "string" (ref "_jsx_string"),
    ref "jsx_expression",
    ref "_jsx_element"])]

def functionRules : List (String × Rule) := [
  ("class", binds "literal" (seq [
    decorators, token "class", labelled "name" (optional (ref "identifier")),
    optional (ref "class_heritage"), labelled "body" (ref "class_body")])),
  ("class_declaration", binds "declare" (seq [
    decorators, token "class", labelled "name" (ref "identifier"),
    optional (ref "class_heritage"), labelled "body" (ref "class_body"),
    optional (token "_automatic_semicolon")])),
  ("class_heritage", seq [token "extends", ref "expression"]),
  ("function_expression", binds "literal" (seq [
    optional (token "async"), token "function", labelled "name" (optional (ref "identifier")),
    ref "_call_signature", blockBody])),
  ("function_declaration", rightBinds "declare" (seq [
    optional (token "async"), token "function", labelled "name" (ref "identifier"),
    ref "_call_signature", blockBody, optional (token "_automatic_semicolon")])),
  ("generator_function", binds "literal" (seq [
    optional (token "async"), token "function", token "*",
    labelled "name" (optional (ref "identifier")), ref "_call_signature", blockBody])),
  ("generator_function_declaration", rightBinds "declare" (seq [
    optional (token "async"), token "function", token "*", labelled "name" (ref "identifier"),
    ref "_call_signature", blockBody, optional (token "_automatic_semicolon")])),
  ("arrow_function", seq [
    optional (token "async"),
    choice [
      labelled "parameter" (choice [reservedName, ref "identifier"]),
      ref "_call_signature"],
    token "=>",
    labelled "body" (choice [ref "expression", ref "statement_block"])]),
  ("_call_signature", labelled "parameters" (ref "formal_parameters")),
  ("_formal_parameter", choice [ref "pattern", ref "assignment_pattern"])]

/-- The binary operators, each with the name of its precedence. -/
def binaryOperators : List (String × String) := [
  ("&&", "logical_and"),
  ("||", "logical_or"),
  (">>", "binary_shift"),
  (">>>", "binary_shift"),
  ("<<", "binary_shift"),
  ("&", "bitwise_and"),
  ("^", "bitwise_xor"),
  ("|", "bitwise_or"),
  ("+", "binary_plus"),
  ("-", "binary_plus"),
  ("*", "binary_times"),
  ("/", "binary_times"),
  ("%", "binary_times"),
  ("**", "binary_exp"),
  ("<", "binary_relation"),
  ("<=", "binary_relation"),
  ("==", "binary_equality"),
  ("===", "binary_equality"),
  ("!=", "binary_equality"),
  ("!==", "binary_equality"),
  (">=", "binary_relation"),
  (">", "binary_relation"),
  ("??", "ternary"),
  ("instanceof", "binary_relation"),
  ("in", "binary_relation")]

/-- The expressions with one binary operator. Only powers group to the right; before `in` also a
private name may stand. -/
def binaryExpression (operator : String × String) : Rule :=
  let left :=
    if operator.1 = "in" then choice [ref "expression", ref "private_property_identifier"]
    else ref "expression"
  let body := seq [
    labelled "left" left,
    labelled "operator" (token operator.1),
    labelled "right" (ref "expression")]
  if operator.1 = "**" then rightBinds operator.2 body else leftBinds operator.2 body

/-- A string between quotes of one kind. -/
def quoted (quote fragment : String) : Rule :=
  seq [
    token quote,
    many (choice [renamed "string_fragment" (ref fragment), ref "escape_sequence"]),
    token quote]

def operatorRules : List (String × Rule) := [
  ("optional_chain", token "?."),
  ("call_expression", choice [
    binds "call" (seq [
      labelled "function" (choice [ref "expression", ref "import"]),
      labelled "arguments" (ref "arguments")]),
    binds "template_call" (seq [
      labelled "function" (choice [ref "primary_expression", ref "new_expression"]),
      labelled "arguments" (ref "template_string")]),
    binds "member" (seq [
      labelled "function" (ref "primary_expression"),
      labelled "optional_chain" (ref "optional_chain"),
      labelled "arguments" (ref "arguments")])]),
  ("new_expression", rightBinds "new" (seq [
    token "new",
    labelled "constructor" (choice [ref "primary_expression", ref "new_expression"]),
    labelled "arguments" (optional (weighted 1 (ref "arguments")))])),
  ("await_expression", binds "unary_void" (seq [token "await", ref "expression"])),
  ("member_expression", binds "member" (seq [
    labelled "object" (choice [ref "expression", ref "primary_expression", ref "import"]),
    choice [token ".", labelled "optional_chain" (ref "optional_chain")],
    labelled "property" (choice [
      ref "private_property_identifier",
      renamed "property_identifier" (ref "identifier")])])),
  ("subscript_expression", rightBinds "member" (seq [
    labelled "object" (choice [ref "expression", ref "primary_expression"]),
    optional (labelled "optional_chain" (ref "optional_chain")),
    token "[",
    labelled "index" (ref "_expressions"),
    token "]"])),
  ("_lhs_expression", choice [
    ref "member_expression",
    ref "subscript_expression",
    ref "_identifier",
    reservedName,
    ref "_destructuring_pattern"]),
  ("assignment_expression", rightBinds "assign" (seq [
    labelled "left" (choice [ref "parenthesized_expression", ref "_lhs_expression"]),
    token "=",
    labelled "right" (ref "expression")])),
  ("_augmented_assignment_lhs", choice [
    ref "member_expression",
    ref "subscript_expression",
    reservedName,
    ref "identifier",
    ref "parenthesized_expression"]),
  ("augmented_assignment_expression", rightBinds "assign" (seq [
    labelled "left" (ref "_augmented_assignment_lhs"),
    labelled "operator" (choice ([
      "+=", "-=", "*=", "/=", "%=", "^=", "&=", "|=", ">>=", ">>>=", "<<=", "**=", "&&=", "||=",
      "??="].map token)),
    labelled "right" (ref "expression")])),
  ("_initializer", seq [token "=", labelled "value" (ref "expression")]),
  ("_destructuring_pattern", choice [ref "object_pattern", ref "array_pattern"]),
  ("spread_element", seq [token "...", ref "expression"]),
  ("ternary_expression", rightBinds "ternary" (seq [
    labelled "condition" (ref "expression"),
    renamed "?" (token "_ternary_qmark"),
    labelled "consequence" (ref "expression"),
    token ":",
    labelled "alternative" (ref "expression")])),
  ("binary_expression", choice (binaryOperators.map binaryExpression)),
  ("unary_expression", leftBinds "unary_void" (seq [
    labelled "operator" (choice (["!", "~", "-", "+", "typeof", "void", "delete"].map token)),
    labelled "argument" (ref "expression")])),
  ("update_expression", leftAssoc (choice [
    seq [labelled "argument" (ref "expression"), labelled "operator" step],
    seq [labelled "operator" step, labelled "argument" (ref "expression")]])),
  ("sequence_expression", rightAssoc (commaSep1 (ref "expression"))),
  ("string", choice [
    quoted "\"" "unescaped_double_string_fragment",
    quoted "'" "unescaped_single_string_fragment"]),
  ("unescaped_double_string_fragment", token "unescaped_double_string_fragment"),
  ("unescaped_single_string_fragment", token "unescaped_single_string_fragment"),
  ("escape_sequence", token "escape_sequence"),
  ("comment", token "comment"),
  ("template_string", seq [
    token "`",
    many (choice [
      renamed "string_fragment" (token "_template_chars"),
      ref "escape_sequence",
      ref "template_substitution"]),
    token "`"]),
  ("template_substitution", seq [token "$\x7b", ref "_expressions", rightBrace]),
  ("regex", seq [
    token "/",
    labelled "pattern" (ref "regex_pattern"),
    token "end of regex",
    optional (labelled "flags" (ref "regex_flags"))]),
  ("regex_pattern", token "regex_pattern"),
  ("regex_flags", token "regex_flags"),
  ("number", token "number"),
  ("_identifier", choice [ref "undefined", ref "identifier"]),
  ("identifier", token "identifier"),
  ("private_property_identifier", token "private_property_identifier"),
  ("meta_property", choice [
    seq [token "new", token ".", token "target"],
    seq [token "import", token ".", token "meta"]]),
  ("this", token "this"),
  ("super", token "super"),
  ("true", token "true"),
  ("false", token "false"),
  ("null", token "null"),
  ("undefined", token "undefined")]

/-- What may stand before the name of a class member: nothing, `static`, or `static get` with a
line break after it. -/
def memberModifier : Rule := optional (choice [token "static", token "static get"])

def memberRules : List (String × Rule) := [
  ("arguments", parens [commaSep (optional (choice [ref "expression", ref "spread_element"]))]),
  ("decorator", seq [
    token "@",
    choice [
      ref "identifier",
      renamed "member_expression" (ref "decorator_member_expression"),
      renamed "call_expression" (ref "decorator_call_expression")]]),
  ("decorator_member_expression", binds "member" (seq [
    labelled "object" (choice [
      ref "identifier",
      renamed "member_expression" (ref "decorator_member_expression")]),
    token ".",
    labelled "property" (renamed "property_identifier" (ref "identifier"))])),
  ("decorator_call_expression", binds "call" (seq [
    labelled "function" (choice [
      ref "identifier",
      renamed "member_expression" (ref "decorator_member_expression")]),
    labelled "arguments" (ref "arguments")])),
  ("class_body", braces [
    many (choice [
      seq [labelled "member" (ref "method_definition"), optional (token ";")],
      seq [
        labelled "member" (ref "field_definition"),
        choice [token "_automatic_semicolon", token ";"]],
      labelled "member" (ref "class_static_block"),
      token ";"])]),
  ("field_definition", seq [
    decorators,
    memberModifier,
    labelled "property" (ref "_property_name"),
    optional (ref "_initializer")]),
  ("formal_parameters", parens [
    optional (seq [commaSep1 (ref "_formal_parameter"), optional (token ",")])]),
  ("class_static_block", seq [token "static", blockBody]),
  ("pattern", weighted (-1) (choice [ref "_lhs_expression", ref "rest_pattern"])),
  ("rest_pattern", rightAssoc (seq [token "...", ref "_lhs_expression"])),
  ("method_definition", seq [
    decorators,
    memberModifier,
    optional (token "async"),
    optional (choice [token "get", token "set", token "*"]),
    labelled "name" (ref "_property_name"),
    labelled "parameters" (ref "formal_parameters"),
    blockBody]),
  ("pair", seq [
    labelled "key" (ref "_property_name"), token ":", labelled "value" (ref "expression")]),
  ("pair_pattern", seq [
    labelled "key" (ref "_property_name"),
    token ":",
    labelled "value" (choice [ref "pattern", ref "assignment_pattern"])]),
  ("_property_name", choice [
    nameAs "property_identifier",
    ref "private_property_identifier",
    ref "string",
    ref "number",
    ref "computed_property_name"]),
  ("computed_property_name", seq [token "[", ref "expression", token "]"]),
  ("_reserved_identifier", choice (["get", "set", "async", "static", "export", "let"].map token)),
  ("_semicolon", choice [token "_automatic_semicolon", token ";"])]

/-- The rules whose nodes are those of their parts. -/
def supertypes : List String :=
  ["statement", "declaration", "expression", "primary_expression", "pattern"]

def grammar : Source where
  rules :=
    moduleRules ++ statementRules ++ expressionRules ++ elementRules ++ functionRules ++
      operatorRules ++ memberRules
  inlined := [
    "_call_signature", "_formal_parameter", "_expressions", "_semicolon", "_identifier",
    "_reserved_identifier", "_jsx_attribute", "_jsx_element_name", "_jsx_child", "_jsx_element",
    "_jsx_attribute_name", "_jsx_attribute_value", "_jsx_identifier", "_lhs_expression"]
  hidden := supertypes
  rankings := [
    [.precedence "member", .precedence "template_call", .precedence "call",
      .rule "update_expression", .precedence "unary_void", .precedence "binary_exp",
      .precedence "binary_times", .precedence "binary_plus", .precedence "binary_shift",
      .precedence "binary_compare", .precedence "binary_relation", .precedence "binary_equality",
      .precedence "bitwise_and", .precedence "bitwise_xor", .precedence "bitwise_or",
      .precedence "logical_and", .precedence "logical_or", .precedence "ternary",
      .rule "sequence_expression", .rule "arrow_function"],
    [.precedence "assign", .rule "primary_expression"],
    [.precedence "member", .precedence "template_call", .precedence "new", .precedence "call",
      .rule "expression"],
    [.precedence "declare", .precedence "literal"],
    [.rule "primary_expression", .rule "statement_block", .precedence "object"],
    [.rule "meta_property", .rule "import"],
    [.rule "import_statement", .rule "import"],
    [.rule "export_statement", .rule "primary_expression"],
    [.rule "lexical_declaration", .rule "primary_expression"]]
  word := "identifier"
  contextual :=
    ["_automatic_semicolon", "_template_chars", "_ternary_qmark", "html_comment", "jsx_text"]
  extras := ["comment", "html_comment"]

end SourceDeps.Script
