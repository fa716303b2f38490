import SsaOpt.Config.Basic
import SsaOpt.Toml.Document

/-!
# Configurations as text

A configuration is a TOML document with a table for each group of settings. Names of tables and
settings may be written in any case. A setting of the wrong type is an error, then any key that is
not a setting, and then values that are out of range.
-/

namespace SsaOpt

open Toml (Node Table Key Document)

/-- Why a text is no configuration. -/
inductive ConfigError where
  /-- It is no TOML document, or a setting has the wrong type. -/
  | malformed
  | unknownKey (key : Key)
  | flawed (flaws : List ConfigFlaw)
deriving DecidableEq

/-- The error in words. -/
def ConfigError.message : ConfigError → String
  | malformed => "not a configuration"
  | unknownKey key => "unknown key " ++ Text.quote (Toml.renderKey key)
  | flawed flaws => "\n".intercalate (flaws.map ConfigFlaw.message)

/-- A setting. -/
inductive Setting where
  | passes
  | verifyModified
  | sizeThreshold
  | exceptionsEnabled
  | maxIterations
  | verbosity
  | logFile
deriving DecidableEq

/-- The tables with the settings in them. -/
def settings : List (String × List (String × Setting)) :=
  [("pipeline", [("passes", .passes), ("verify_modified", .verifyModified)]),
    ("inline", [("size_threshold", .sizeThreshold), ("exceptions_enabled", .exceptionsEnabled)]),
    ("dce", [("max_iterations", .maxIterations)]),
    ("log", [("verbosity", .verbosity), ("file", .logFile)])]

/-- A character without its case, as far as the letters of settings are concerned. -/
def foldCase (c : Char) : Char :=
  if c = '\u017f' then 's' else if c = '\u212a' then 'k' else c.toLower

/-- What a key means among some names: the name itself, or else one that agrees up to case. -/
def named? {α : Type} (names : List (String × α)) (key : String) : Option α :=
  match names.lookup key with
  | some found => some found
  | none => (names.find? fun n => n.1 = key.map foldCase).map Prod.snd

/-! ## Values -/

/-- The text that a node is. -/
def textOf? : Node → Option String
  | .value (.scalar (.text s)) => some s
  | _ => none

/-- The number that a node is. -/
def integerOf? : Node → Option Int
  | .value (.scalar (.integer n)) => some n
  | _ => none

/-- The truth value that a node is. -/
def truthOf? : Node → Option Bool
  | .value (.scalar (.truth b)) => some b
  | _ => none

/-- The list of texts that a node is. -/
def textsOf? : Node → Option (List String)
  | .value (.array items) => items.mapM fun item => textOf? (.value item)
  | _ => none

namespace Config

/-- Gives a setting the value of a node. -/
def set? (c : Config) (setting : Setting) (node : Node) : Option Config :=
  match setting with
  | .passes => (textsOf? node).map fun passes => { c with passes }
  | .verifyModified => (truthOf? node).map fun verifyModified => { c with verifyModified }
  | .sizeThreshold => (integerOf? node).map fun sizeThreshold => { c with sizeThreshold }
  | .exceptionsEnabled => (truthOf? node).map fun exceptionsEnabled => { c with exceptionsEnabled }
  | .maxIterations => (integerOf? node).map fun maxIterations => { c with maxIterations }
  | .verbosity => (integerOf? node).map fun verbosity => { c with verbosity }
  | .logFile => (textOf? node).map fun logFile => { c with logFile }

/-- Takes the settings from the entries of a table. -/
def takeEntries? (names : List (String × Setting)) (c : Config) (table : Table) : Option Config :=
  table.foldlM (fun c (key, node) =>
    match named? names key with
    | some setting => c.set? setting node
    | none => some c) c

/-- Takes the settings from the tables of a document. -/
def takeTables? (c : Config) (root : Table) : Option Config :=
  root.foldlM (fun c (key, node) =>
    match named? settings key, node with
    | some names, .table entries => c.takeEntries? names entries
    | some _, _ => none
    | none, _ => some c) c

/-- Whether a document gives a value to a setting under its proper name. -/
def defines (doc : Document) (table key : String) : Bool :=
  match doc.root.lookup table with
  | some (.table entries) => (entries.lookup key).isSome
  | _ => false

/-- Whether a key of a document is a table of settings, or a setting that has its value from
there. -/
def isRead (doc : Document) : Key → Bool
  | [table] => (named? settings table).isSome
  | [table, key] =>
    defines doc table key && (named? settings table).any fun names => (named? names key).isSome
  | _ => false

/-- Fills in what a document leaves open. -/
def withDefaults (c : Config) (doc : Document) : Config :=
  { c with
    passes :=
      if c.passes.isEmpty && !defines doc "pipeline" "passes" then defaultPasses else c.passes
    sizeThreshold :=
      if defines doc "inline" "size_threshold" then c.sizeThreshold else defaultSizeThreshold }

/-- The configuration that a text describes. -/
def parse (text : String) : Except ConfigError Config :=
  match Document.ofText? text with
  | none => .error .malformed
  | some doc =>
    match takeTables? {} doc.root with
    | none => .error .malformed
    | some c =>
      match doc.mentioned.find? fun key => !isRead doc key with
      | some key => .error (.unknownKey key)
      | none =>
        let c := c.withDefaults doc
        if c.flaws.isEmpty then .ok c else .error (.flawed c.flaws)

end Config

end SsaOpt
