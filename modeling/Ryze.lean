import Ryze.HttpParser.Request
import Ryze.HttpParser.PrefixStability
import Ryze.HttpParser.RequestLineSafety
import Ryze.HttpParser.ChunkedTruncation
import Ryze.HttpParser.RequestLineSoundness
import Ryze.HttpParser.HttpDecodeChunked
import Ryze.HttpParser.ChunkedInPlace
import Ryze.HttpParser.ChunkedOverflow
import Ryze.HttpParser.LineEnds
import Ryze.HttpParser.HeaderSafety
import Ryze.HttpParser.HeaderFolding
import Ryze.Util.FileDirname
import Ryze.Ev.WorkQueue
import Ryze.Ev.EventLoop
import Ryze.Eio.Ownership
import Ryze.Fs.ReadString
import Ryze.Fs.Arguments
import Ryze.Esm.Sharing
import Ryze.Esm.Identity
import Ryze.Esm.Ownership
import Ryze.Http.SendQueue
import Ryze.Ev.ThreadPool
import Ryze.Util.CppPath
import Ryze.Util.HttpGet
import Ryze.Util.UrlSplit
import Ryze.Util.HttpBuffers
import Ryze.Util.ReadFile
import Ryze.Util.TestHttpGet
import Ryze.List.Family
import Ryze.Util.TestPathSafety
import Ryze.Util.TestPathLexical
import Ryze.HttpParser.HexNumerals
import Ryze.Ev.LoopProgress
import Ryze.Eio.Leaks
import Ryze.Fs.Settling
import Ryze.Ev.ThreadPoolTasks
import Ryze.Ev.ThreadPoolSettling
import Ryze.Esm.CompileCount
import Ryze.HttpParser.RequestLanguage
import Ryze.HttpParser.HeaderCopies
import Ryze.Ev.TaskLinksMatch
import Ryze.Util.TestHttpRequest
import Ryze.Ev.Epoll
import Ryze.Esm.CppLoader
import Ryze.Util.TestDirname
import Ryze.Util.TestHttpMemory
