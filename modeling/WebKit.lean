import WebKit.B3.ChillDivision
import WebKit.B3.SwitchLowering
import WebKit.BMalloc.LargeObjects
import WebKit.Bytecode.UnlinkedInstructionStream
import WebKit.ContentExtensions.ActionSerialization
import WebKit.ContentExtensions.DFABytecodeCompiler
import WebKit.ContentExtensions.DFACombiner
import WebKit.ContentExtensions.NFAToDFA
import WebKit.ContentExtensions.Term
import WebKit.DOM.DocumentMarkers
import WebKit.Graphics.LayoutUnit
import WebKit.Graphics.WrappingRegion
import WebKit.IndexedDB.TransactionScheduler
import WebKit.IndexedDB.UniqueIDBDatabase
import WebKit.Media.PlatformTimeRanges
import WebKit.Network.CacheHeader
import WebKit.Runtime.PropertyMap
import WebKit.Text.ChunkedDecoding
import WebKit.UIProcess.BackForwardListState
import WebKit.WTF.Dominators
import WebKit.WTF.MediaTimeScales
import WebKit.WTF.MetaAllocator.System
import WebKit.WebSockets.Frame
