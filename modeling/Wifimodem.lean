import Wifimodem.Lib.Transducer
import Wifimodem.Core.Types
import Wifimodem.Lib.ByteBlock
import Wifimodem.Lib.LittleEndian
import Wifimodem.Util.Buffer
import Wifimodem.Util.BufferStream
import Wifimodem.Util.JsonMachine
import Wifimodem.Util.JsonGrammar
import Wifimodem.Util.JsonTokens
import Wifimodem.Util.JsonAccept
import Wifimodem.Util.BufferPack
import Wifimodem.Core.Mempool
import Wifimodem.Core.Logger
import Wifimodem.Lib.Extent
import Wifimodem.Phy.WirelessScan
import Wifimodem.Core.Str
import Wifimodem.Phy.Serialport
import Wifimodem.Phy.WirelessEvents
import Wifimodem.Phy.Wireless
import Wifimodem.Phy.SerialAutobaud
import Wifimodem.Phy.WirelessBrackets
import Wifimodem.Core.List
import Wifimodem.Core.Arena
import Wifimodem.Core.StrView
import Wifimodem.Core.StrSafe
import Wifimodem.Core.StrText
import Wifimodem.Util.Repl
import Wifimodem.Lib.Regex
import Wifimodem.Util.Uri
import Wifimodem.Util.UriGrammar
import Wifimodem.Phy.Terminal
import Wifimodem.Lib.ShiftRegister
import Wifimodem.Util.Crc16
import Wifimodem.Phy.WirelessConfig
import Wifimodem.Core.StrNumber
import Wifimodem.Core.StrFloat
import Wifimodem.Util.JsonInvariant
import Wifimodem.Util.JsonBuffer
import Wifimodem.Util.JsonNumber
import Wifimodem.Lib.Filling
import Wifimodem.Util.BufferLayout
import Wifimodem.Core.ArenaCalls
import Wifimodem.Core.ListEnds
import Wifimodem.Util.BufferAppend
import Wifimodem.Phy.WirelessObserver
import Wifimodem.Util.ReplLine
import Wifimodem.Util.ReplWords
import Wifimodem.Util.ReplBlanks
import Wifimodem.Phy.WirelessAuth
import Wifimodem.Lib.Chained
import Wifimodem.Phy.WirelessScanList
import Wifimodem.Phy.WirelessScanResult
import Wifimodem.Util.NetParse
import Wifimodem.Core.StrQuoted
import Wifimodem.Util.UriPort
import Wifimodem.Phy.Formatters
import Wifimodem.Phy.WirelessAnswers
import Wifimodem.Core.LoggerFormat
import Wifimodem.Net.Netaddr
import Wifimodem.Net.ScratchBlocks
import Wifimodem.Util.NetSocket
import Wifimodem.Core.StrCompare
import Wifimodem.Core.StrOrder
import Wifimodem.Core.StrFind
import Wifimodem.Core.Algorithm
import Wifimodem.Core.SimpleSorts
import Wifimodem.Core.StrBinary
import Wifimodem.Core.ShellSort
import Wifimodem.Core.Bounds
import Wifimodem.Lib.RegisterPolynomial
import Wifimodem.Util.Crc16Remainder
import Wifimodem.Phy.AutobaudCalculate
import Wifimodem.Phy.TerminalCount
import Wifimodem.Phy.TerminalLines
import Wifimodem.Lib.Blocks
import Wifimodem.Lib.OrderedDict
import Wifimodem.Lib.Pool
import Wifimodem.Tools.Gencodec
import Wifimodem.Tools.GencodecLookup
import Wifimodem.Tools.GencodecOutput
import Wifimodem.Lib.RegisterErrors
import Wifimodem.Util.Crc16Errors
import Wifimodem.Lib.Turns
import Wifimodem.Phy.WirelessJoin
import Wifimodem.Phy.AutobaudCapture
import Wifimodem.Util.ReplTyped
import Wifimodem.Util.ReplRun
import Wifimodem.Phy.Ledcontrol
import Wifimodem.Core.LoggerHexdump
import Wifimodem.Core.LoggerSession
import Wifimodem.Phy.SerialHardware
import Wifimodem.Util.UriCompose
import Wifimodem.Core.SortedSearch
import Wifimodem.Net.NetaddrOrder
import Wifimodem.Net.NetaddrFormat
import Wifimodem.Lib.Coroutine
import Wifimodem.Util.Ujson
import Wifimodem.Util.UjsonDecode
import Wifimodem.Util.JsonHeard
