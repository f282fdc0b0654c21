import PhpIndex.Json.Basic
import PhpIndex.Settings.Layers

/-!
# Settings in JSON

The form of settings for other programs. A root that is not set is left out.
-/
namespace PhpIndex

mutual

/-- What a JSON value says as a setting: null says nothing. -/
def Json.toConfig? : Json → Option ConfigValue
  | .null => none
  | .bool b => some (.bool b)
  | .number n => some (.integer n)
  | .string s => some (.text s)
  | .array items => some (.list (Json.toConfigs items))
  | .object members => some (.table (Json.toEntries members))

def Json.toConfigs : List Json → List ConfigValue
  | [] => []
  | item :: rest => item.toConfig?.toList ++ Json.toConfigs rest

def Json.toEntries : List (String × Json) → List (String × ConfigValue)
  | [] => []
  | (key, item) :: rest =>
    item.toConfig?.toList.map (fun v => (key, v)) ++ Json.toEntries rest

end

instance : ToJson UInt64 := ⟨fun n => .number n.toNat⟩

instance : ToJson IndexSettings where
  toJson s := .object [("path", toJson s.path), ("persist", toJson s.persist)]

instance : ToJson IndexingSettings where
  toJson s := .object
    [("extensions", toJson s.extensions), ("ignore_patterns", toJson s.ignorePatterns),
     ("max_concurrent_files", toJson s.maxConcurrentFiles)]

instance : ToJson CompletionSettings where
  toJson s := .object [("limit", toJson s.limit)]

instance : ToJson Settings where
  toJson s := .object
    (("version", toJson s.version) ::
      s.workspaceRoot?.toList.map (fun root => ("workspace_root", toJson root)) ++
      [("debug", toJson s.debug), ("index", toJson s.index), ("indexing", toJson s.indexing),
       ("completion", toJson s.completion)])

/-- Settings of which some may be left out. -/
def Settings.ofJson? (missing : Settings) (j : Json) : Option Settings :=
  j.toConfig?.bind missing.ofConfig?

end PhpIndex
