import HostVitals.Program.Start

/-! The command line: gathers the files that a start of the program may look at, starts it on them,
prints what it says and writes the files it leaves. -/
namespace HostVitals.Program

open CommandLine

def entry? (path : String) : IO (Option FileEntry) := do
  let place := System.mkFilePath [path]
  if ← place.isDir then return some .directory
  try
    let bytes ← IO.FS.readBinFile place
    match String.fromUTF8? bytes with
    | some s => return some (.text s)
    | none => return some (.binary bytes.size)
  catch _ => return none

def namesIn (path : String) : IO (List String) := do
  try
    return (← (System.mkFilePath [path]).readDir).toList.map (·.fileName)
  catch _ => return []

def addFile (files : FileTree) (path : String) : IO FileTree := do
  match ← entry? path with
  | some e => return { files := files.files.insert (FileTree.normal path) [e] }
  | none => return files

def addFiles (files : FileTree) (paths : List String) : IO FileTree := paths.foldlM addFile files

def above (path : String) : List String :=
  let ps := FileTree.parts path
  ((List.range ps.length).map fun n => FileTree.joinParts false (ps.take n)).filter (· ≠ "")

def addPath (files : FileTree) (path : Option String) : IO FileTree :=
  match path with
  | some p => addFiles files (above p ++ [p])
  | none => return files

def hostPaths : List String :=
  ["/proc/loadavg", "/proc/meminfo", "/proc/net/dev", "/proc/diskstats", "/proc/mounts",
    "/proc/uptime", "/proc/self/limits", "/proc/sys/kernel/random/entropy_avail",
    "/proc/pressure/cpu", "/proc/pressure/memory", "/proc/pressure/io",
    Collecting.thermalBase, Collecting.chipBase]

def hostFiles : IO FileTree := do
  let files ← addFiles {} hostPaths
  let zones := (← namesIn Collecting.thermalBase).map fun z =>
    Collecting.thermalBase ++ "/" ++ z ++ "/temp"
  let chips ← (← namesIn Collecting.chipBase).mapM fun c => do
    let chip := Collecting.chipBase ++ "/" ++ c
    return ((← namesIn chip).filter fun f => f = "name" || Collecting.isTemperature f).map
      fun f => chip ++ "/" ++ f
  let files ← addFiles files (zones ++ chips.flatten)
  let descriptors ← namesIn "/proc/self/fd"
  let opened := descriptors.map fun d => ("/proc/self/fd/" ++ d, [FileEntry.text ""])
  let first ← entry? "/proc/stat"
  IO.sleep (Span.wholeMillis Probe.baselineWindow).toUInt32
  let second ← entry? "/proc/stat"
  let looks := [first, second].filterMap id
  let more := if looks.isEmpty then opened else ("/proc/stat", looks) :: opened
  return { files := more.foldl (fun t e => t.insert e.1 e.2) files.files }

def hostUname : IO (Option Uname) := do
  let names ← ["ostype", "osrelease", "version", "arch"].mapM fun n => do
    match ← entry? ("/proc/sys/kernel/" ++ n) with
    | some (.text s) => return String.ofList (Text.trim s.toList)
    | _ => return ""
  match names with
  | [sysname, release, version, machine] => return some ⟨sysname, release, version, machine⟩
  | _ => return none

def probeFor (args : List String) : IO Probe := do
  match Arguments.read args with
  | .error _ => return {}
  | .ok a =>
    let settingsFiles ← addFiles {} Settings.standardPaths
    let settingsFiles ← addPath settingsFiles a.config
    let files ← match a.command with
      | some (.config output _ _) => addPath settingsFiles (some (output.getD standardOutput))
      | some (.collect _ _) => do
        pure { settingsFiles with files := settingsFiles.files.union (← hostFiles).files }
      | none =>
        match (Settings.resolve settingsFiles a).1 with
        | .ok s => addPath (← addPath settingsFiles s.certificate) s.key
        | .error _ => pure settingsFiles
    return { files, uname := ← hostUname, window := Probe.baselineWindow }

def newTexts (before after : FileTree) : List (String × String) :=
  after.files.entries.filterMap fun e =>
    match e.2 with
    | .text s :: _ =>
      if ((before.files.find? e.1).getD []).contains (.text s) then none else some (e.1, s)
    | _ => none

def perform (probe : Probe) : Start → IO UInt32
  | .ended e => do
    for (path, text) in newTexts probe.files e.files do
      IO.FS.writeFile path text
    IO.print e.out
    IO.eprint e.err
    return e.code.toUInt32
  | .listens _ s => do
    IO.eprintln ("No network to listen on at " ++ endpointText s)
    return 1

end HostVitals.Program

def main (args : List String) : IO UInt32 := do
  let probe ← HostVitals.Program.probeFor args
  HostVitals.Program.perform probe (HostVitals.Program.start (fun _ => "0.00") probe args)
