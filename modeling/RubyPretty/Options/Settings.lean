import RubyPretty.Options.Basic
import RubyPretty.Json.Inspect
/-!
# Reading options

Settings are collected from a mapping and then checked one after the other. A setting keeps the
form in which a message would show it.
-/

namespace RubyPretty

inductive Expected where
  | positive
  | boolean
  | quote
  | trailingComma
  | atMostChainThreshold (limit : Nat)
  | keyNames
  | languages
deriving DecidableEq, Repr

def Expected.text : Expected → String
  | .positive => "a positive integer"
  | .boolean => "a boolean"
  | .quote => "one of ' or \""
  | .trailingComma => "one of none, all, es5"
  | .atMostChainThreshold limit => "at most chain_threshold (" ++ toString limit ++ ")"
  | .keyNames => "a list of key names"
  | .languages => "a mapping of tag to language"

structure BadSetting where
  option : String
  shown : String
  expected : Expected
deriving DecidableEq, Repr

def BadSetting.message (b : BadSetting) : String :=
  "Invalid value for option '" ++ b.option ++ "': " ++ b.shown ++
    " (expected " ++ b.expected.text ++ ")"

/-- The value of a setting and the form in which a message shows it. -/
structure Setting where
  value : Json
  shown : String
deriving Repr

def Setting.plain (value : Json) : Setting := ⟨value, value.inspect⟩

/-- A setting that the reader has made its own copy of: a list shows as a fixed sequence, a
mapping as a read-only one. -/
def Setting.frozen (value : Json) : Setting :=
  match value with
  | .arr vs => ⟨value, Json.tupleText (Json.inspectItems vs)⟩
  | .obj _ => ⟨value, "mappingproxy(" ++ value.inspect ++ ")"⟩
  | _ => .plain value

abbrev Settings := List (String × Setting)

namespace Settings

def names : List String :=
  ["print_width", "tab_width", "modifier", "inline_conditionals", "array_literal", "hash_label",
    "to_proc", "to_proc_guarded_keys", "quote", "trailing_comma", "chain_threshold",
    "signature_chain_threshold", "embedded_languages", "embedded_fallback"]

/-- The names that editor configurations use. -/
def aliases : List (String × String) :=
  [("printWidth", "print_width"), ("tabWidth", "tab_width"), ("trailingComma", "trailing_comma"),
    ("rubyModifier", "modifier"), ("rubyArrayLiteral", "array_literal"),
    ("rubyHashLabel", "hash_label"), ("rubyToProc", "to_proc"),
    ("rubySingleQuote", "single_quote"), ("rubyInlineConditionals", "inline_conditionals")]

def set (settings : Settings) (name : String) (s : Setting) : Settings := (name, s) :: settings

/-- Takes over one member of a mapping; unknown names are passed over. -/
def addLoose (settings : Settings) (key : String) (value : Json) : Except BadSetting Settings :=
  let name := (aliases.lookup key).getD key
  if name = "single_quote" then
    match value with
    | .bool b => .ok (settings.set "quote" (.plain (.str (if b then "'" else "\""))))
    | _ => .error ⟨key, value.inspect, .boolean⟩
  else if names.contains name then
    match name, value with
    | "to_proc_guarded_keys", .arr _ | "embedded_languages", .obj _ =>
        .ok (settings.set name (.frozen value))
    | _, _ => .ok (settings.set name (.plain value))
  else .ok settings

def ofLoose (members : List (String × Json)) : Except BadSetting Settings :=
  members.foldlM (fun settings (key, value) => settings.addLoose key value) []

def ofStrict? (members : List (String × Json)) : Option Settings :=
  members.foldlM
    (fun settings (key, value) =>
      if names.contains key then some (Settings.set settings key (.plain value)) else none)
    []

/-- Reads one setting, or takes the default if it is not set. -/
def fetch {α : Type} (settings : Settings) (name : String) (expected : Expected) (default : α)
    (read? : Json → Option α) : Except BadSetting α :=
  match settings.lookup name with
  | none => .ok default
  | some s =>
      match read? s.value with
      | some a => .ok a
      | none => .error ⟨name, s.shown, expected⟩

def positive? : Json → Option Nat
  | .int n => if 1 ≤ n then some n.toNat else none
  | _ => none

def boolean? : Json → Option Bool
  | .bool b => some b
  | _ => none

def quote? : Json → Option Quote
  | .str "'" => some .single
  | .str "\"" => some .double
  | _ => none

def trailingComma? : Json → Option TrailingComma
  | .str "none" => some .none
  | .str "all" => some .all
  | .str "es5" => some .es5
  | _ => none

def keyNames? : Json → Option (List String)
  | .arr vs => vs.mapM Json.str?
  | _ => none

def languages? : Json → Option (List (String × String))
  | .obj ms => ms.mapM fun (k, v) => v.str?.map fun s => (k, s)
  | _ => none

def options (s : Settings) : Except BadSetting Options := do
  let d := Options.default
  let printWidth ← s.fetch "print_width" .positive d.printWidth positive?
  let tabWidth ← s.fetch "tab_width" .positive d.tabWidth positive?
  let chainThreshold ← s.fetch "chain_threshold" .positive d.chainThreshold positive?
  let signatureChainThreshold ←
    s.fetch "signature_chain_threshold" .positive d.signatureChainThreshold positive?
  let modifier ← s.fetch "modifier" .boolean d.modifier boolean?
  let inlineConditionals ←
    s.fetch "inline_conditionals" .boolean d.inlineConditionals boolean?
  let arrayLiteral ← s.fetch "array_literal" .boolean d.arrayLiteral boolean?
  let hashLabel ← s.fetch "hash_label" .boolean d.hashLabel boolean?
  let toProc ← s.fetch "to_proc" .boolean d.toProc boolean?
  let embeddedFallback ← s.fetch "embedded_fallback" .boolean d.embeddedFallback boolean?
  let quote ← s.fetch "quote" .quote d.quote quote?
  let trailingComma ← s.fetch "trailing_comma" .trailingComma d.trailingComma trailingComma?
  if signatureChainThreshold > chainThreshold then
    throw ⟨"signature_chain_threshold", toString signatureChainThreshold,
      .atMostChainThreshold chainThreshold⟩
  let guardedKeys ← s.fetch "to_proc_guarded_keys" .keyNames d.guardedKeys keyNames?
  let languages ← s.fetch "embedded_languages" .languages d.languages languages?
  return {
    printWidth, tabWidth, modifier, inlineConditionals, arrayLiteral, hashLabel, toProc,
    guardedKeys, quote, trailingComma, chainThreshold, signatureChainThreshold, languages,
    embeddedFallback }

end Settings

def Options.ofLoose (members : List (String × Json)) : Except BadSetting Options := do
  (← Settings.ofLoose members).options

end RubyPretty
