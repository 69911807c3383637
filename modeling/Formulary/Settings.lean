import Formulary.Node.Inline
import Formulary.Text.White

/-!
Settings that are taken from the environment.
-/
namespace Formulary

/-- The variables of an environment by name. -/
abbrev Environment := String → Option String

structure Settings where
  debug : Bool
  cacheGrammar : Bool
deriving DecidableEq, Repr

namespace Settings

def standard : Settings := ⟨false, false⟩

def truthy : List String := ["1", "true", "yes", "on"]

/-- White space around the value and capitals in it do not count. -/
def isTruthy (value : String) : Bool :=
  truthy.contains (String.ofList ((trim value.toList).map Char.toLower))

def flag (env : Environment) (name : String) : Bool := (env name).any isTruthy

def ofEnvironment (env : Environment) : Settings :=
  ⟨flag env "TEXCALC_DEBUG", flag env "TEXCALC_CACHE_GRAMMAR"⟩

def inline (s : Settings) : String :=
  "ParserSettings(debug=" ++ boolText s.debug ++ ", cache_grammar=" ++ boolText s.cacheGrammar ++ ")"

end Settings
end Formulary
