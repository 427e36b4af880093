import Cythonizer.Settings.Coding
import Cythonizer.Workspace.Basic

namespace Cythonizer.Settings.Loading

open Cythonizer.Workspace.Basic

def settingsPath (project : Path) : Path :=
  project.join { text := "cyopt.toml" }

/-- The settings of a project, which are the defaults where there is no settings file. -/
def load (project : Path) : Attempt Problem Settings := do
  let path := settingsPath project
  let w ← get
  if FileTree.Access.holds w.files w.here path then
    let text ← onPath path (readText path)
    match Coding.read text with
    | .ok settings => return settings
    | .error fault => throw (.badSettings path fault.message)
  else return {}

end Cythonizer.Settings.Loading
