/-!
# Faults

Why an operation on a file or a process failed, as a value, and the text it is shown as. It is the
`source` of a failure.
-/

namespace SuiteRunner

namespace Fault

/-- What went wrong, where no error number says it. -/
inductive Kind where
  | notFound
  | permissionDenied
  | alreadyExists
  | wouldBlock
  | brokenPipe
  | invalidInput
  | invalidData
  | timedOut
  | writeZero
  | interrupted
  | unsupported
  | unexpectedEof
  | outOfMemory
  | other
  deriving DecidableEq, Repr

/-- The text of a kind. -/
def Kind.text : Kind → String
  | notFound => "entity not found"
  | permissionDenied => "permission denied"
  | alreadyExists => "entity already exists"
  | wouldBlock => "operation would block"
  | brokenPipe => "broken pipe"
  | invalidInput => "invalid input parameter"
  | invalidData => "invalid data"
  | timedOut => "timed out"
  | writeZero => "write zero"
  | interrupted => "operation interrupted"
  | unsupported => "unsupported"
  | unexpectedEof => "unexpected end of file"
  | outOfMemory => "out of memory"
  | other => "other error"

/-- The text of a system error number. -/
def systemText : Int → String
  | 1 => "Operation not permitted"
  | 2 => "No such file or directory"
  | 5 => "Input/output error"
  | 8 => "Exec format error"
  | 10 => "No child processes"
  | 13 => "Permission denied"
  | 20 => "Not a directory"
  | 21 => "Is a directory"
  | 36 => "File name too long"
  | 40 => "Too many levels of symbolic links"
  | n => s!"Unknown error {n}"

end Fault

/-- Why an operation on a file or a process failed. -/
inductive Fault where
  /-- The system's error number. -/
  | system (number : Int)
  /-- A kind of fault and no more. -/
  | plain (kind : Fault.Kind)
  /-- A kind of fault, told in words. -/
  | told (kind : Fault.Kind) (text : String)
  /-- A path with a zero byte. -/
  | nulInPath
  /-- An executable or an argument with a zero byte. -/
  | nulInArgument
  /-- Bytes that are not UTF-8 where text is expected. -/
  | notText
  deriving DecidableEq, Repr

namespace Fault

/-- `ENOENT`: there is no such entry. -/
def noEntry : Fault := system 2

/-- `ENOEXEC`: a file that no loader knows. -/
def notExecutable : Fault := system 8

/-- `EACCES`: not allowed. -/
def noAccess : Fault := system 13

/-- `ENOTDIR`: a directory is needed. -/
def notDirectory : Fault := system 20

/-- `EISDIR`: anything but a directory is needed. -/
def isDirectory : Fault := system 21

/-- `ENAMETOOLONG`: a name or a path is too long. -/
def nameTooLong : Fault := system 36

/-- `ELOOP`: too many links on the way. -/
def tooManyLinks : Fault := system 40

/-- The text of a fault. -/
def text : Fault → String
  | system n => s!"{systemText n} (os error {n})"
  | plain k => k.text
  | told _ t => t
  | nulInPath => "file name contained an unexpected NUL byte"
  | nulInArgument => "nul byte found in provided data"
  | notText => "stream did not contain valid UTF-8"

end Fault

end SuiteRunner
