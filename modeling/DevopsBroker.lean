import DevopsBroker.Lib.Chain
import DevopsBroker.Io.FileBuffer
import DevopsBroker.Io.FileBufferListSpec
import DevopsBroker.Lang.StringBuilderSpec
import DevopsBroker.Hash.Md5Spec
import DevopsBroker.Compress.InflateSpec
import DevopsBroker.Adt.HashMap
import DevopsBroker.Adt.HashMapCreate
import DevopsBroker.Adt.QueueBounded
import DevopsBroker.Memory.StructPoolSpec
import DevopsBroker.Adt.ListArrayArm
import DevopsBroker.Compress.ZipMemberSpec
import DevopsBroker.Compress.RestoreSpec
import DevopsBroker.Compress.CentralDirectorySpec
import DevopsBroker.Compress.EndOfCDRSpec
import DevopsBroker.Io.AsyncRuns
import DevopsBroker.Io.ReadListSpec
import DevopsBroker.System.Linux
import DevopsBroker.Compress.InflateAccess
import DevopsBroker.Compress.HuffmanAccess
import DevopsBroker.Compress.CodeLengthsAccess
import DevopsBroker.Compress.InflateProgress
import DevopsBroker.Net.IPv4StringSpec
import DevopsBroker.Net.IPv6StringSpec
import DevopsBroker.Net.IpUtil
import DevopsBroker.Net.LookUpSpec
import DevopsBroker.Text.LineBufferSpec
import DevopsBroker.Fs.ListingSpec
import DevopsBroker.Cgi.HttpRequestSpec
import DevopsBroker.Lang.StringBuilderRoom
import DevopsBroker.Lang.StringScan
import DevopsBroker.Lang.StringCompareSpec
import DevopsBroker.Lang.StringSearchSpec
import DevopsBroker.Lang.StringTrimSpec
import DevopsBroker.Lang.StringSplit
import DevopsBroker.Net.NetworkDeviceRequest
import DevopsBroker.Lang.IntegerText
import DevopsBroker.Lang.IntegerFormatSpec
import DevopsBroker.Lang.IntegerParseSpec
import DevopsBroker.Lang.IntegerHexSpec
import DevopsBroker.Cgi.UrlDecodeSpec
import DevopsBroker.Terminal.CommandLine
import DevopsBroker.Cgi.QueryScan
import DevopsBroker.Cgi.PostDataSpec
import DevopsBroker.Cgi.HttpResponseSpec
import DevopsBroker.Hash.Md5Hex
import DevopsBroker.Lang.StringBuilderArray
import DevopsBroker.Net.SubnetMaskSpec
import DevopsBroker.Net.RefusedSpec
import DevopsBroker.Text.FileLineSpec
import DevopsBroker.Log.LogLine
import DevopsBroker.Log.LogLineSpec
import DevopsBroker.Fs.MakeDirectory
import DevopsBroker.Fs.MakeDirectorySpec
import DevopsBroker.Lib.Trace
import DevopsBroker.Lang.AllocRequest
import DevopsBroker.Lang.MemoryMoves
import DevopsBroker.Lang.MemoryMovesSpec
import DevopsBroker.Adt.ListArrayMoves
import DevopsBroker.Lang.StringCopy
import DevopsBroker.Lang.ExecuteSpec
import DevopsBroker.Adt.UnsignedIntArraySpec
