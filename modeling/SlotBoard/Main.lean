import Std.Time
import SlotBoard.Archive.Uuid
import SlotBoard.Command.Run
import SlotBoard.Command.Watch

/-!
The command line on real files. Everything that is decided is decided by `Invocation.start`; this
module reads and writes files, takes the time, and prints reports.
-/
namespace SlotBoard.Main

def faultOf (e : IO.Error) : FileFault :=
  match e with
  | .noFileOrDirectory .. => .notFound
  | .alreadyExists .. => .alreadyExists
  | .inappropriateType _ code _ => if code = 21 then .isDirectory else .notDirectory
  | .invalidArgument _ code _ => if code = 36 then .nameTooLong else .invalidName
  | .permissionDenied .. => .other "permission denied"
  | e => .other (toString e)

def attempt (action : IO α) (onFault : FileFault → ε) : IO (Except ε α) := do
  try
    return .ok (← action)
  catch e =>
    return .error (onFault (faultOf e))

instance : MonadFiles IO where
  workingDirectory := do return (← IO.currentDir).toString
  kind path := attempt
    (do
      let data ← ((← IO.currentDir) / path).metadata
      return if data.type == .dir then .directory else .file)
    id
  read path := attempt (do return (← IO.FS.readBinFile path).toList) fun fault =>
    ⟨if fault = .isDirectory then "read" else "open", path, fault⟩
  names path := do
    try
      return (← ((← IO.currentDir) / path).readDir).toList.map (·.fileName)
    catch _ =>
      return []
  makeDirectory path := attempt (IO.FS.createDir path) id
  write path content := attempt (IO.FS.writeBinFile path ⟨content.toArray⟩) fun fault =>
    ⟨"open", path, fault⟩

instance : MonadArchives IO where
  inspect path := do return (← MonadFiles.read path).map .ofBytes
  keep path archive := MonadFiles.write path archive.encode

instance : MonadStamp IO where
  stamp := do
    let id := Uuid.ofBytes (← IO.getRandomBytes 16).toList
    let now ← Std.Time.Timestamp.now
    return ⟨id, Int64.ofInt now.toNanosecondsSinceUnixEpoch.val⟩
  showTime nanoseconds := do
    let rules ← Std.Time.Database.defaultGetLocalZoneRules
    let moment := Std.Time.Timestamp.ofNanosecondsSinceUnixEpoch ⟨nanoseconds.toInt⟩
    return (Std.Time.DateTime.ofTimestamp moment rules).format "uuuu-MM-dd HH:mm:ss"

def print (r : Report) : IO Unit := do
  let output ← IO.getStdout
  output.write ⟨(Utf8.encode r.output).toArray⟩
  output.flush
  for notice in r.notices do
    IO.eprint notice.text

/-- The contents of the inputs, where a file that cannot be read counts as empty. -/
def contents (c : Config) : IO (List (Option Bytes)) :=
  c.inputs.mapM fun path => do return (← MonadFiles.read path).toOption

def pause : UInt32 := 150

/-- Lower the inputs, and again whenever one of them has changed. -/
partial def watch (c : Config) (seen : List (Option Bytes)) : IO Unit := do
  IO.sleep pause
  let now ← contents c
  if now ≠ seen then print (← c.run)
  watch c now

/-- Read what an editor sends, to its end. -/
partial def drain (input : IO.FS.Stream) : IO Unit := do
  unless (← input.read 4096).isEmpty do drain input

end SlotBoard.Main

def main (arguments : List String) : IO UInt32 := do
  match ← (SlotBoard.Invocation.start arguments : IO SlotBoard.Activity) with
  | .done r =>
    SlotBoard.Main.print r
    return r.status.code
  | .serve _ =>
    SlotBoard.Main.drain (← IO.getStdin)
    return 0
  | .watch c =>
    let seen ← SlotBoard.Main.contents c
    SlotBoard.Main.print (← c.run)
    SlotBoard.Main.watch c seen
    return 0
