import JsOs.CountedLoops
import JsOs.TransitionRuns
import JsOs.ImplicitHeaps
import JsOs.ByteMemory
import JsOs.MemoryMoves
import JsOs.MachineWords
import JsOs.HeapModel
import JsOs.HeapLayout
import JsOs.HeapSurgery
import JsOs.HeapFrames
import JsOs.HeapOperations
import JsOs.HeapChanges
import JsOs.HeapCalls
import JsOs.HeapRuns
import JsOs.HeapStatistics
import JsOs.HeapCompleteness
import JsOs.ReleaseOrder
import JsOs.AllocateRelease
import JsOs.HeapCoalescing
import JsOs.StrayMagic
import JsOs.StalePointers
import JsOs.HeapStore
import JsOs.AllocatorBooks
import JsOs.QsortModel
import JsOs.QsortCorrectness
import JsOs.FramebufferModel
import JsOs.FramebufferPainting
import JsOs.StrokedRectangles
import JsOs.ConsoleFont
import JsOs.ConsoleModel
import JsOs.TextGrid
import JsOs.ConsoleRefinement
import JsOs.TableTrees
import JsOs.PageTableModel
import JsOs.PageWalk
import JsOs.PageMapping
import JsOs.TableGrowth
import JsOs.MmioModel
import JsOs.MmioRanges
import JsOs.ExistingMappings
import JsOs.OutputSinks
import JsOs.FormatModel
import JsOs.FormatTruncation
import JsOs.BoundedBuffers
import JsOs.FormatReading
import JsOs.Numerals
import JsOs.IsoFormats
import JsOs.FormatScanning
import JsOs.FieldLayouts
import JsOs.IntegerConversions
import JsOs.IsoConformance
import JsOs.TextConversions
import JsOs.ReentrantPrograms
import JsOs.RuntimeModel
import JsOs.RuntimeDeadlines
import JsOs.ConsoleCursor
import JsOs.AllocatorLimits
import JsOs.ShrinkingRequests
import JsOs.DrawingModel
import JsOs.PointPlotting
import JsOs.DigitalLines
import JsOs.LineDrawing
import JsOs.DigitalCircles
import JsOs.CircleDrawing
import JsOs.PixelStores
import JsOs.BitFields
import JsOs.RoundedMeans
import JsOs.BlendingModel
import JsOs.PixelBlending
import JsOs.ImageBlits
import JsOs.TextLines
import JsOs.TextModel
import JsOs.MeasuredText
import JsOs.FloatingFormats
import JsOs.FloatingConversions
import JsOs.ConversionBuffers
import JsOs.FormatTotality
import JsOs.RoundedRectangles
import JsOs.PlaneTriangles
import JsOs.TriangleFilling
import JsOs.TextCells
import JsOs.MainLoops
import JsOs.ShellLines
import JsOs.StringModel
import JsOs.KeyedComparisons
import JsOs.StringOrder
import JsOs.StringSearch
import JsOs.CanonicalNumerals
import JsOs.IntegerReading
import JsOs.ClockModel
import JsOs.ExactClock
import JsOs.PortPrograms
import JsOs.SerialModel
import JsOs.SerialLine
import JsOs.SerialTransmitter
import JsOs.OutputStreams
import JsOs.ScreenConfinement
import JsOs.DrawnText
import JsOs.ColorChannels
import JsOs.DisplayLists
import JsOs.ConsoleMirror
import JsOs.AbsentTables
import JsOs.DeviceRuns
import JsOs.TableBudget
import JsOs.HeapCapacity
import JsOs.BlockAllocator
import JsOs.StringMoves
import JsOs.CharacterSearch
import JsOs.SortingWork
import JsOs.FormatComposition
import JsOs.ProcedureContracts
import JsOs.BootModel
import JsOs.BootSafety
import JsOs.TimeKeeping
import JsOs.MainTranscripts
import JsOs.ShellDialogue
import JsOs.Utf8Layout
import JsOs.EngineStrings
import JsOs.Utf8Sequences
import JsOs.TextPassage
