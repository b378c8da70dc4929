import ArgGrammar.Parser
import ArgGrammar.Settings

/-!
# The demonstration grammar

The commands of a small key-value store: `set`, `get`, `list` and `del`.

- `Demo.grammar`: the grammar, under the rules for unknown flags.
- `Demo.parser`: the grammar with the way to split lines.
- `Demo.usage`: its summary.
-/

namespace ArgGrammar.Demo

/-- The summary of the grammar. -/
def usage : String :=
  "set [-f|--force] [-t|--ttl <seconds>] <key> <value...>\n" ++
  "get <key>\n" ++
  "list [limit] [asc|desc]\n" ++
  "del <key>..."

/-- A word that names a command. -/
def command (word : String) : Element := .literal word (.bool true) [word]

/-- The flags of `set`. -/
def setFlags (s : ParserSettings) : Flags :=
  (({ unknownShort := s.unknownShort, unknownLong := s.unknownLong } : Flags).flag
    ["f", "-force"]).valueFlag (.integer "ttl") ["t", "-ttl"]

/-- Stores a value. -/
def set (s : ParserSettings) : Element :=
  .seq [command "set", (setFlags s).around (.seq [.string "key", .rest "value"])]

/-- Looks a value up. -/
def get : Element := .seq [command "get", .string "key"]

/-- Lists values: how many, and in which order. -/
def list : Element :=
  .seq
    [command "list", .optional (.integer "limit") (some (.int 10)) true,
     .optional (.choices "order" [("asc", .text "asc"), ("desc", .text "desc")]) none false]

/-- Removes values. -/
def del : Element := .seq [command "del", .allOf (.string "keys")]

/-- The grammar of all commands. -/
def grammar (s : ParserSettings) : Element := .firstOf [set s, get, list, del]

/-- The grammar with the way to split lines. -/
def parser (s : ParserSettings) : Parser := ⟨grammar s, s.tokenizer⟩

end ArgGrammar.Demo
