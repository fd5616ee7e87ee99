import RubyPretty.Syntax.Tree
/-!
# The grammar of trees

The tags that a Ruby program can be built from. Most productions have a fixed number of children;
the others hold any number of them.
-/

namespace RubyPretty.Grammar

def tokens : List String :=
  ["@int", "@float", "@rational", "@imaginary", "@ident", "@const", "@ivar", "@cvar", "@gvar",
    "@kw", "@op", "@label", "@period", "@backref", "@backtick", "@tstring_content", "@CHAR",
    "@args_forward", "@__end__"]

def fixed : List (String × Nat) :=
  [("program", 1), ("void_stmt", 0), ("bodystmt", 4), ("paren", 1), ("begin", 1), ("BEGIN", 1),
    ("END", 1), ("var_ref", 1), ("var_field", 1), ("vcall", 1), ("const_path_ref", 2),
    ("const_path_field", 2), ("top_const_ref", 1), ("top_const_field", 1), ("field", 3),
    ("aref", 2), ("aref_field", 2), ("defined", 1), ("assign", 2), ("opassign", 3),
    ("massign", 2), ("mlhs_paren", 1), ("binary", 3), ("unary", 2), ("not", 1), ("dot2", 2),
    ("dot3", 2), ("string_literal", 2), ("xstring_literal", 1), ("string_concat", 2),
    ("string_embexpr", 1), ("string_dvar", 1), ("symbol_literal", 1), ("dyna_symbol", 2),
    ("regexp_literal", 3), ("heredoc", 3), ("array", 1), ("hash", 1), ("assoc_new", 2),
    ("assoc_splat", 1), ("args_add_block", 2), ("arg_paren", 1), ("arg_star", 1), ("blockarg", 1),
    ("call", 3), ("fcall", 1), ("method_add_arg", 2), ("method_add_block", 2), ("command", 2),
    ("command_call", 4), ("brace_block", 2), ("do_block", 2), ("block_var", 2), ("lambda", 2),
    ("super", 1), ("zsuper", 0), ("yield", 1), ("yield0", 0), ("params", 7), ("rest_param", 1),
    ("kwrest_param", 1), ("excessed_comma", 0), ("def", 3), ("defs", 5), ("class", 3),
    ("module", 2), ("sclass", 2), ("alias", 2), ("var_alias", 2), ("if", 3), ("unless", 3),
    ("elsif", 3), ("else", 1), ("if_mod", 2), ("unless_mod", 2), ("ifop", 3), ("while", 2),
    ("until", 2), ("while_mod", 2), ("until_mod", 2), ("for", 3), ("case", 2), ("when", 3),
    ("in", 3), ("rescue", 3), ("rescue_ex", 2), ("ensure", 1), ("rescue_mod", 2), ("return", 1),
    ("return0", 0), ("break", 1), ("next", 1), ("redo", 0), ("retry", 0), ("hshptn", 2),
    ("rassign", 3)]

def variadic : List String :=
  ["stmts", "mlhs", "mrhs", "qwords", "qsymbols", "words", "symbols", "word",
    "assoclist_from_args", "bare_assoc_hash", "args", "undef", "aryptn"]

def tags : List String := tokens ++ fixed.map (·.1) ++ variadic

def arity? (tag : String) : Option Nat := fixed.lookup tag

end RubyPretty.Grammar
