import RubyPretty.Printing.Registry
import RubyPretty.Rules.Blocks
import RubyPretty.Rules.Cases
import RubyPretty.Rules.Definitions
import RubyPretty.Rules.Hashes
import RubyPretty.Rules.Heredocs
import RubyPretty.Rules.Jumps
import RubyPretty.Rules.Loops
import RubyPretty.Rules.Operators
import RubyPretty.Rules.Rescue
import RubyPretty.Rules.Tokens
import RubyPretty.Rules.Variables
/-!
# The rules of Ruby

Every tag of the grammar with its rule.
-/

namespace RubyPretty.Rules

def plain (tags : List String) (name : String) (rule : DocRule) : Registration :=
  ⟨tags, ⟨name, .ofDoc rule⟩, false⟩

/-- A rule that places the comments of its node itself. -/
def placing (tags : List String) (name : String) (rule : DocRule) : Registration :=
  ⟨tags, ⟨name, .ofDoc rule⟩, true⟩

/-- A rule of a node that can be a link of a chain. -/
def linking (tags : List String) (name : String) (rule : Rule) : Registration :=
  ⟨tags, ⟨name, rule⟩, false⟩

def tokens : List Registration :=
  [plain
      ["@float", "@rational", "@imaginary", "@ident", "@const", "@ivar", "@cvar", "@gvar",
        "@kw", "@op", "@label", "@period", "@backref", "@backtick", "@args_forward"]
      "print_token" token,
    plain ["@int"] "print_int" integer,
    plain ["@tstring_content"] "print_string_content" stringContent,
    plain ["@CHAR"] "print_char" character,
    plain ["@__end__"] "print_end_content" endMarker]

def literals : List Registration :=
  [plain ["string_literal"] "print_string_literal" stringLiteral,
    plain ["xstring_literal"] "print_xstring_literal" shellString,
    plain ["string_concat"] "print_string_concat" stringConcat,
    plain ["string_embexpr"] "print_string_embexpr" interpolation,
    plain ["string_dvar"] "print_string_dvar" variableInterpolation,
    plain ["symbol_literal"] "print_symbol_literal" symbolLiteral,
    plain ["dyna_symbol"] "print_dyna_symbol" quotedSymbol,
    plain ["regexp_literal"] "print_regexp_literal" regexp,
    plain ["heredoc"] "print_heredoc" heredoc]

def statements : List Registration :=
  [plain ["program"] "print_program" program,
    plain ["void_stmt"] "print_void_stmt" voidStmt,
    placing ["stmts"] "print_stmts" stmts,
    plain ["bodystmt"] "print_bodystmt" bodystmt,
    plain ["paren"] "print_paren" paren,
    plain ["begin"] "print_begin" beginBlock,
    plain ["BEGIN"] "print_BEGIN" (hook "BEGIN"),
    plain ["END"] "print_END" (hook "END")]

def expressions : List Registration :=
  [plain ["var_ref"] "print_var_ref" variableName,
    plain ["var_field"] "print_var_field" variableName,
    plain ["const_path_ref", "const_path_field"] "print_const_path" constPath,
    plain ["top_const_ref", "top_const_field"] "print_top_const" topConst,
    plain ["field"] "print_field" field,
    plain ["aref", "aref_field"] "print_aref" index,
    plain ["defined"] "print_defined" definedCheck,
    plain ["assign"] "print_assign" assign,
    plain ["opassign"] "print_opassign" operatorAssign,
    plain ["massign"] "print_massign" multipleAssign,
    plain ["mlhs"] "print_mlhs" targets,
    plain ["mlhs_paren"] "print_mlhs_paren" targetsParen,
    plain ["mrhs"] "print_mrhs" values,
    plain ["binary"] "print_binary" binary,
    plain ["unary"] "print_unary" unary,
    plain ["not"] "print_not" negation,
    plain ["dot2"] "print_dot2" (range ".."),
    plain ["dot3"] "print_dot3" (range "...")]

def collections : List Registration :=
  [plain ["qwords"] "print_qwords" (wordList "%w"),
    plain ["qsymbols"] "print_qsymbols" (wordList "%i"),
    plain ["words"] "print_words" (wordList "%W"),
    plain ["symbols"] "print_symbols" (wordList "%I"),
    plain ["word"] "print_word" word,
    placing ["array"] "print_array" array,
    plain ["assoc_new"] "print_assoc_new" pair,
    plain ["assoc_splat"] "print_assoc_splat" pairSplat,
    plain ["assoclist_from_args", "bare_assoc_hash"] "print_assoc_list" pairList,
    placing ["hash"] "print_hash" hash]

def calls : List Registration :=
  [plain ["args", "args_add_block"] "print_args" args,
    plain ["arg_paren"] "print_arg_paren" argParen,
    plain ["arg_star"] "print_arg_star" argStar,
    plain ["blockarg"] "print_blockarg" blockArg,
    linking ["call"] "print_call" call,
    plain ["fcall", "vcall"] "print_call_name" callName,
    linking ["method_add_arg"] "print_method_add_arg" callWithArguments,
    linking ["method_add_block"] "print_method_add_block" callWithBlock,
    plain ["command"] "print_command" command,
    plain ["command_call"] "print_command_call" receiverCommand,
    plain ["block_var"] "print_block_var" blockVar,
    plain ["brace_block", "do_block"] "print_block" block,
    plain ["lambda"] "print_lambda" lambda,
    plain ["super"] "print_super" superCall,
    plain ["zsuper"] "print_zsuper" (keyword "super"),
    plain ["yield"] "print_yield" yieldCall,
    plain ["yield0"] "print_yield0" (keyword "yield")]

def definitions : List Registration :=
  [plain ["params"] "print_params" params,
    plain ["rest_param"] "print_rest_param" restParam,
    plain ["kwrest_param"] "print_kwrest_param" keywordRestParam,
    plain ["excessed_comma"] "print_excessed_comma" excessedComma,
    plain ["def"] "print_def" methodDefinition,
    plain ["defs"] "print_defs" singletonMethod,
    plain ["class"] "print_class" classDefinition,
    plain ["module"] "print_module" moduleDefinition,
    plain ["sclass"] "print_sclass" singletonClass,
    plain ["alias", "var_alias"] "print_alias" aliasName,
    plain ["undef"] "print_undef" undefNames]

def branches : List Registration :=
  [plain ["if"] "print_if" (conditional .isTrue),
    plain ["unless"] "print_unless" (conditional .isFalse),
    plain ["if_mod"] "print_if_mod" (singleConditional "if" true),
    plain ["unless_mod"] "print_unless_mod" (singleConditional "unless" true),
    plain ["elsif"] "print_elsif" elsif,
    plain ["else"] "print_else" elseClause,
    plain ["ifop"] "print_ifop" ternaryOperator,
    plain ["case"] "print_case" case,
    plain ["when"] "print_when" whenClause,
    plain ["in"] "print_in" inClause,
    plain ["aryptn"] "print_aryptn" arrayPattern,
    plain ["hshptn"] "print_hshptn" hashPattern,
    plain ["rassign"] "print_rassign" rightAssign]

def flow : List Registration :=
  [plain ["while"] "print_while" (loop "while" false),
    plain ["until"] "print_until" (loop "until" false),
    plain ["while_mod"] "print_while_mod" (loop "while" true),
    plain ["until_mod"] "print_until_mod" (loop "until" true),
    plain ["for"] "print_for" forLoop,
    plain ["rescue"] "print_rescue" rescue,
    plain ["rescue_ex"] "print_rescue_ex" rescueExceptions,
    plain ["ensure"] "print_ensure" ensure,
    plain ["rescue_mod"] "print_rescue_mod" rescueModifier,
    plain ["return"] "print_return" returnJump,
    plain ["return0"] "print_return0" (keyword "return"),
    plain ["break"] "print_break" (jump "break"),
    plain ["next"] "print_next" (jump "next"),
    plain ["redo"] "print_redo" (keyword "redo"),
    plain ["retry"] "print_retry" (keyword "retry")]

def all : List Registration :=
  tokens ++ literals ++ statements ++ expressions ++ collections ++ calls ++ definitions ++ branches
    ++ flow

end RubyPretty.Rules

namespace RubyPretty

def Registry.default : Registry where
  entries := Rules.all.flatMap fun call => call.tags.map fun tag => (tag, call.entry)
  owners := Rules.all.flatMap fun call => if call.ownComments then call.tags else []

end RubyPretty
