import TapiOS.Dev.Pci
import TapiOS.Drivers.LineEdit
import TapiOS.Drivers.Receive
import TapiOS.Fs.DirLinks
import TapiOS.Fs.DirReads
import TapiOS.Fs.Ext2Counters
import TapiOS.Fs.InodeRecords
import TapiOS.Fs.Mount
import TapiOS.Fs.NameSearch
import TapiOS.Fs.WriteBack
import TapiOS.Irq.Lines
import TapiOS.Mem.HeapRuns
import TapiOS.Network.Acknowledge
import TapiOS.Network.ArpExchange
import TapiOS.Network.FrameBounds
import TapiOS.Network.OpenList
import TapiOS.Network.Stream
import TapiOS.Network.Transmit
import TapiOS.Task.CurrentDir
import TapiOS.Task.ElfLoad
import TapiOS.Task.ExecHandover
import TapiOS.Task.FailedCreation
import TapiOS.Task.FdArguments
import TapiOS.Task.InodeLifetime
import TapiOS.Task.LastClose
import TapiOS.Task.Listings
import TapiOS.Task.OpenResult
import TapiOS.Task.Poll
import TapiOS.Task.SocketLifetime
import TapiOS.Task.SpaceRuns
import TapiOS.Task.StartStacks
import TapiOS.Task.TreeRuns
import TapiOS.Task.WaitChild
import TapiOS.Task.WholePaths
import TapiOS.Terminal.OnScreen
import TapiOS.Terminal.PlainText
import TapiOS.Util.Move
import TapiOS.Mem.Ascending
import TapiOS.Mem.PageCalls
