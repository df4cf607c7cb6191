import UefiLinux.Confinement
import UefiLinux.ConsoleBuffer
import UefiLinux.ConsoleInput
import UefiLinux.ConsoleLoops
import UefiLinux.ConsoleOutput
import UefiLinux.FileSessions
import UefiLinux.FileSizes
import UefiLinux.FileTimes
import UefiLinux.Footprints
import UefiLinux.Granting
import UefiLinux.Grants
import UefiLinux.Leaks
import UefiLinux.Libc
import UefiLinux.LibcSessions
import UefiLinux.Library.FileStore
import UefiLinux.Library.Timeline
import UefiLinux.LinePieces
import UefiLinux.LineSources
import UefiLinux.Mktime
import UefiLinux.Pools
import UefiLinux.RecordBounds
import UefiLinux.Reporting
import UefiLinux.Resting
import UefiLinux.Secrecy
import UefiLinux.Seeking
import UefiLinux.Sessions
import UefiLinux.Shutdown
import UefiLinux.Sleeping
import UefiLinux.Timekeeping
import UefiLinux.Transfers
import UefiLinux.WideStrings
import UefiLinux.Wrappers
