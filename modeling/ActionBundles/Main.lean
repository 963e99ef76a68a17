import ActionBundles.Command.Run
import ActionBundles.Timestamp

/-!
# The program

The program reads the files that a command may look at, runs the command on them, and carries out
the changes. What a command does is in `Command.Run`; nothing is decided here.
-/

namespace ActionBundles.Program

/-! ### Reading files -/

/-- What is at a name in a directory. A link stands for the path that it leads to. -/
def look (dir name : String) : IO (Option Node) := do
  let entry : IO.FS.DirEntry := ⟨dir, name⟩
  try
    match (← entry.path.symlinkMetadata).type with
    | .dir => return some .directory
    | .file => return some (.file (← IO.FS.readBinFile entry.path).toList false)
    | .symlink =>
      let target ← try pure (← IO.FS.realPath entry.path).toString catch _ => pure "/missing"
      return some (.link target.toList)
    | .other => return none
  catch _ => return none

/-- The path of an address. -/
def pathOf (a : Address) : String := String.ofList (Path.ofNames a.reverse)

/-- The tree with what is on the way to a path. -/
partial def readWay (t : Tree) (dir : Address) : List Text → IO Tree
  | [] => return t
  | name :: rest => do
    if name = ['.'] then readWay t dir rest
    else if name = ['.', '.'] then readWay t dir.tail rest
    else
      match ← look (pathOf dir) (String.ofList name) with
      | none => return t
      | some (.link target) =>
        readWay (t.set name dir (.link target)) [] (Path.steps target ++ rest)
      | some node => readWay (t.set name dir node) (name :: dir) rest

/-- The tree with everything below a directory. -/
partial def readBelow (t : Tree) (dir : Address) : IO Tree := do
  let here : IO.FS.DirEntry := ⟨pathOf dir, ""⟩
  let entries ← try here.path.readDir catch _ => pure #[]
  entries.foldlM
    (fun t entry => do
      let name := entry.fileName.toList
      match ← look (pathOf dir) entry.fileName with
      | none => return t
      | some .directory => readBelow (t.set name dir .directory) (name :: dir)
      | some (.link target) =>
        let address := (Path.steps target).reverse
        let known := (t.get? address).isSome
        let t ← readWay (t.set name dir (.link target)) [] (Path.steps target)
        if known then return t else readBelow t address
      | some node => return t.set name dir node)
    t

/-- The address that a path leads to from the working directory, if it is there. -/
def addressOf (path : Text) : IO (Option Address) := do
  try
    return some (Path.steps (← IO.FS.realPath (String.ofList path)).toString.toList).reverse
  catch _ => return none

/-- The disk as far as a command may look: the project and the model that it names. -/
def readDisk (command : Command) : IO Disk := do
  let workingDirectory := (Path.steps (← IO.currentDir).toString.toList).reverse
  let addWay (t : Tree) (path : Text) : IO Tree :=
    readWay t (Tree.startOf path workingDirectory) (Path.steps path)
  let addProject (t : Tree) (root : Text) : IO Tree := do
    let t ← addWay t root
    match ← addressOf root with
    | some address => readBelow t address
    | none => return t
  let t ← readWay .empty [] workingDirectory.reverse
  let t ← match command with
    | .init root _ => addProject t root
    | .generate root none _ => addProject t root
    | .generate root (some model) _ => do addWay (← addProject t root) model
    | .validate root _ => addProject t root
    | .inspect model _ => addWay t model
  return ⟨t, workingDirectory⟩

/-! ### Carrying out changes -/

/-- Creates or replaces an entry. -/
def put (a : Address) : Node → IO Unit
  | .directory => IO.FS.createDir (pathOf a)
  | .file content executable => do
    IO.FS.writeBinFile (pathOf a) content.toByteArray
    if executable then
      let all : IO.AccessRight := ⟨true, true, true⟩
      let others : IO.AccessRight := ⟨true, false, true⟩
      IO.setAccessRights (pathOf a) ⟨all, others, others⟩
  | .link _ => return

/-- Removes an entry, which holds nothing any more. -/
def remove (a : Address) : Node → IO Unit
  | .directory => IO.FS.removeDir (pathOf a)
  | _ => IO.FS.removeFile (pathOf a)

/-- Makes the changes that lead from one tree to another. -/
def carryOut (before after : Tree) : IO Unit := do
  let inOrder (es : List (Address × Node)) : List (Address × Node) :=
    es.mergeSort fun a b => a.1.length ≤ b.1.length
  let isGone (e : Address × Node) : Bool :=
    match after.get? e.1 with
    | none => true
    | some node => decide (e.2 = .directory) != decide (node = .directory)
  for e in (inOrder (before.entries.toList.filter isGone)).reverse do remove e.1 e.2
  for e in inOrder after.entries.toList do
    let old := (before.get? e.1).filter fun node => !isGone (e.1, node)
    if old ≠ some e.2 then
      if old matches some (.link _) then IO.FS.removeFile (pathOf e.1)
      put e.1 e.2

/-! ### Running -/

/-- The time now, as files get it. -/
def now : IO Nat := do
  let (_, path) ← IO.FS.createTempFile
  let time := (← path.metadata).modified.sec
  IO.FS.removeFile path
  return time.toNat

/-- A name for transactions. -/
def transactionName : IO Text := do
  let letters := "abcdefghijklmnopqrstuvwxyz0123456789".toList
  let name ← (List.range 6).mapM fun _ => do
    return letters.getD (← IO.rand 0 (letters.length - 1)) 'a'
  return "txn-".toList ++ name

/-- What is printed when help is asked for or the arguments name no command. -/
def usage : String :=
  "Usage: fcm-bridge [--verbose] <COMMAND>\n\n" ++
  "Commands:\n" ++
  "  init [--project-root DIR] [--force]\n" ++
  "  generate MODEL [--project-root DIR] [--strict]\n" ++
  "  generate --generate-all [--project-root DIR] [--strict]\n" ++
  "  validate [--project-root DIR] [--json]\n" ++
  "  inspect MODEL [--strict]\n"

/-- What is said about arguments that name no command. -/
def complain (e : UsageError) : IO UInt32 := do
  match e with
  | .version => IO.println "fcm-bridge 0.1.0"
  | .help => IO.print usage
  | _ => IO.eprint usage
  return e.exitCode.toUInt32

/-- Runs a command on the files of the machine. -/
def execute (command : Command) : IO UInt32 := do
  let occasion : Occasion := ⟨Timestamp.render (← now), ← transactionName⟩
  let before ← readDisk command
  let (outcome, after) := Id.run ((command.run occasion).run before)
  carryOut before.tree after.tree
  IO.print (String.ofList outcome.output)
  if let .error e := outcome.result then IO.eprintln ("Error: " ++ String.ofList e.message)
  return outcome.exitCode.toUInt32

end ActionBundles.Program

open ActionBundles in
/-- Runs the command that the arguments name. -/
def main (args : List String) : IO UInt32 :=
  match Command.parse (args.map String.toList) with
  | .error e => Program.complain e
  | .ok command => Program.execute command
