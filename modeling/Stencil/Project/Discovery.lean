import Stencil.Project.Settings

/-! # Finding templates -/

namespace Stencil.Project

structure SourceFile where
  path : Path
  /-- The path below the input that led to it; output folders have the same layout. -/
  relative : Path
  deriving Repr, DecidableEq

mutual

/-- The templates in a file or folder, in the order of their names. Nothing below a folder that is
    passed over is found. -/
def Entry.templates (s : Settings) (path relative : Path) : Entry → List SourceFile
  | .file _ => if s.isTemplate path then [⟨path, relative⟩] else []
  | .folder entries => if s.isIgnored path then [] else templatesIn s path relative entries

def templatesIn (s : Settings) (path relative : Path) : List (Name × Entry) → List SourceFile
  | [] => []
  | (name, e) :: entries =>
    e.templates s (path.join ⟨name⟩) (relative.join ⟨name⟩) ++ templatesIn s path relative entries

end

/-- The templates of one input. A file is always one; a folder is searched. -/
def templatesAt (root : Entry) (s : Settings) (input : Path) :
    Except ProjectError (List SourceFile) :=
  match root.find? input with
  | none => throw (.missingInput input)
  | some (.file _) => return [⟨input, (input.fileName?.map (⟨·⟩)).getD input⟩]
  | some (.folder entries) => return (Entry.folder entries).templates s input .here

def inputs (cwd : Path) (a : Arguments) : List Path :=
  if a.paths.isEmpty then [cwd] else a.paths.map cwd.join

def findTemplates (root : Entry) (cwd : Path) (s : Settings) (a : Arguments) :
    Except ProjectError (List SourceFile) :=
  return (← (inputs cwd a).mapM (templatesAt root s)).flatten

def outputPath (cwd : Path) (s : Settings) (file : SourceFile) : Path :=
  let ending := ['j', 's']
  match s.outDir with
  | none => file.path.withEnding ending
  | some dir => ((cwd.join dir).join file.relative).withEnding ending

end Stencil.Project
