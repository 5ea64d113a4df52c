import Stowage.Document.Json
import Stowage.Document.Yaml

/-!
# Document formats
-/

namespace Stowage

inductive Format
  | json
  | yaml
deriving DecidableEq

namespace Document

def read? : Format → String → Option Document
  | .json, s => ofJson? s
  | .yaml, s => ofYaml? s

end Document
end Stowage
