/-!
# Process settings

Where to listen, which configuration file to read, where to keep state, and the secret that
submitters share. They come from the environment; without a secret nobody can submit.

* `Settings`, `Settings.ofEnvironment`.
-/

namespace TransparencyLog

/-- The settings of a process. -/
structure Settings where
  bindAddress : String
  configPath : String
  stateDir : String
  submitSecret : Option String
deriving DecidableEq, Repr

/-- A variable that has to be set and is not. -/
structure MissingVariable where
  name : String
deriving DecidableEq, Repr

def MissingVariable.message (missing : MissingVariable) : String :=
  "Missing required env var: " ++ missing.name

namespace Settings

/-- The settings in an environment. Only the configuration file has no default. -/
def ofEnvironment (value? : String → Option String) : Except MissingVariable Settings :=
  match value? "TLOGD_CONFIG" with
  | none => .error ⟨"TLOGD_CONFIG"⟩
  | some configPath =>
    .ok {
      bindAddress := (value? "TLOGD_BIND_ADDR").getD "0.0.0.0:8420"
      configPath
      stateDir := (value? "TLOGD_STATE_DIR").getD "./state"
      submitSecret := (value? "TLOGD_SUBMIT_SECRET").filter fun secret => !secret.isEmpty }

end Settings

end TransparencyLog
