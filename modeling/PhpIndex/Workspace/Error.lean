import PhpIndex.Store.Error

/-!
# Errors of the workspace

Why indexing or a question failed, with a stable code for other programs and with what a user may
try.
-/
namespace PhpIndex

inductive IndexError where
  | fileRead (path : String) (fault : FileFault)
  /-- The grammar of the language cannot be used. -/
  | grammar (language reason : String)
  | noTree (uri : String)
  | store (e : StoreError)
  | task (uri reason : String)
  | settings (reason : String)
  | general (text : String)
  deriving DecidableEq

namespace IndexError

def message : IndexError → String
  | .fileRead path fault => "Failed to read file '" ++ path ++ "': " ++ fault.message
  | .grammar language reason =>
    "Failed to initialize " ++ language ++ " parser: " ++ reason ++
      "\nSuggestion: Ensure tree-sitter-php is properly installed and the version matches Cargo.toml"
  | .noTree uri => "Parser produced no tree for '" ++ uri ++ "'"
  | .store e => "Storage operation failed: " ++ e.message
  | .task uri reason => "Indexing task for '" ++ uri ++ "' did not complete: " ++ reason
  | .settings reason => "Invalid configuration: " ++ reason
  | .general text => text

def status : IndexError → String
  | .fileRead .. => "FILE_READ_ERROR"
  | .grammar .. => "PARSER_ERROR"
  | .noTree _ => "PARSER_ERROR"
  | .store (.format _) => "INDEX_CORRUPTED"
  | .store _ => "STORAGE_ERROR"
  | .task .. => "TASK_FAILED"
  | .settings _ => "CONFIG_ERROR"
  | .general _ => "GENERAL_ERROR"

/-- An index that cannot be read has to be built anew. -/
def rebuildHints : List String :=
  ["Delete the index directory and run 'phpsense index' to rebuild it",
   "Check for disk errors or filesystem corruption"]

def retryHints : List String :=
  ["Check disk space and permissions in the index directory",
   "Run 'phpsense index' again, unchanged files are skipped"]

/-- What a user may try. -/
def hints : IndexError → List String
  | .fileRead .. =>
    ["Check that the file exists and you have read permissions",
     "Ensure the file is not locked by another process"]
  | .grammar .. => ["Ensure tree-sitter-php matches the version in Cargo.toml"]
  | .noTree _ => ["Ensure tree-sitter-php matches the version in Cargo.toml"]
  | .store (.format _) => rebuildHints
  | .store (.snapshot _ (.version _)) => retryHints
  | .store (.snapshot ..) => rebuildHints
  | .store (.file _) => retryHints
  | .task .. => ["The other files were indexed, try the operation again"]
  | .settings _ => ["Run 'phpsense init --force' to regenerate the settings file"]
  | .general _ => []

/-- The message, followed by those of the causes behind it. -/
def trail : IndexError → List String
  | .fileRead path fault => [message (.fileRead path fault), fault.message]
  | .store (.file fault) =>
    [message (.store (.file fault)), StoreError.message (.file fault), fault.message]
  | .store e => [message (.store e), e.message]
  | other => [message other]

end IndexError
end PhpIndex
