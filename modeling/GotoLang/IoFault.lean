/-!
# Failures of input and output
-/
namespace GotoLang

/-- The path in `atPath` is one that the caller did not name. -/
inductive IoFault where
  | notFound
  | busy
  | notADirectory
  | isADirectory
  | notText
  | noRoom
  | flushFailed
  | noSpace
  | allTaken
  | atPath (fault : IoFault) (path : String)
deriving DecidableEq

def IoFault.text : IoFault → String
  | notFound => "No such file or directory (os error 2)"
  | busy => "Device or resource busy (os error 16)"
  | notADirectory => "Not a directory (os error 20)"
  | isADirectory => "Is a directory (os error 21)"
  | notText => "stream did not contain valid UTF-8"
  | noRoom => "write limit reached"
  | flushFailed => "flush failed"
  | noSpace => "No space left on device (os error 28)"
  | allTaken => "too many temporary files exist"
  | atPath fault path => s!"{fault.text} at path \"{path}\""

end GotoLang
