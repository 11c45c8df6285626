import BluMach.Flags
import BluMach.FlagsRead
import BluMach.FlagsCarry
import BluMach.FlagsLazy
import BluMach.LastWins
import BluMach.Sweep
import BluMach.MemLookup
import BluMach.MemMap
import BluMach.MemMapLaws
import BluMach.Allocator
import BluMach.AllocatorLaws
import BluMach.Timer
import BluMach.TimerLaws
import BluMach.TimerRuns
import BluMach.CodeblockTree
import BluMach.LinkedTree
import BluMach.CodeblockTreeLaws
import BluMach.CodegenReg
import BluMach.CodegenRegSteps
import BluMach.DeadUops
import BluMach.DeadUopsLaws
import BluMach.DeadUopsWorklist
import BluMach.EvictList
import BluMach.EvictListLaws
import BluMach.Mmu
import BluMach.MmuLaws
import BluMach.PitExact
import BluMach.PitSteps
import BluMach.PitReads
import BluMach.Decimal
import BluMach.Waveform
import BluMach.PitCounts
import BluMach.PitWaves
import BluMach.PitHistory
import BluMach.PitPeriodic
import BluMach.OneShot
import BluMach.PitOneShot
import BluMach.EdgeTrain
import BluMach.PitFast
import BluMach.PitFastLaws
import BluMach.PitModels
import BluMach.Dma
import BluMach.DmaLaws
import BluMach.DmaRuns
import BluMach.Paged
import BluMach.RingQueue
import BluMach.Network
import BluMach.NetworkLaws
import BluMach.NetworkRuns
import BluMach.NetworkTicks
import BluMach.HdcSt506
import BluMach.HdcSt506Commands
import BluMach.Guarded
import BluMach.HdcSt506Bounds
import BluMach.HdcSt506Walk
import BluMach.HdcXta
import BluMach.HdcXtaBounds
import BluMach.HdcXtaSectors
import BluMach.HdcSt506Sectors
import BluMach.BitShift
import BluMach.Cpu808x
import BluMach.Cpu808xLaws
import BluMach.Marty
import BluMach.MartyLaws
import BluMach.CoresAgree
import BluMach.HdcIde
import BluMach.HdcIdeWrites
import BluMach.HdcIdeReads
import BluMach.HdcIdeReadsLaws
import BluMach.Pic
import BluMach.PicSlaves
import BluMach.InPlace
import BluMach.Tiling
import BluMach.CdromImage
import BluMach.CdromImagePasses
import BluMach.CdromImageLayout
import BluMach.CdromImageSearch
import BluMach.CdromImageSession
import BluMach.TimerProcess
import BluMach.CodePresence
import BluMach.Fifo
import BluMach.PicCascade
import BluMach.PicLines
import BluMach.Nesting
import BluMach.PicNesting
import BluMach.PicFrames
import BluMach.PicPending
import BluMach.Io
import BluMach.IoLaws
import BluMach.IoAccess
import BluMach.IoAccessLaws
import BluMach.AllocatorPool
import BluMach.MemLookupLaws
import BluMach.PageWriteLaws
import BluMach.MmuBounds
import BluMach.HddImageExtend
import BluMach.HddImageEx
import BluMach.HddImageHeaders
import BluMach.MemAccess
import BluMach.MmuPages
import BluMach.MemAccessLaws
import BluMach.MemAccessPlaces
import BluMach.MemLookupRing
import BluMach.MemAccessPieces
import BluMach.MemAccessWrites
import BluMach.MemAccessRing
import BluMach.MemAccessWalks
import BluMach.MemAccessOutcomes
import BluMach.MemAccessTaken
import BluMach.MemAccessReads
import BluMach.MemAccessSplit
import BluMach.HdcSt506Formats
import BluMach.HdcSt506Verify
import BluMach.HdcXtaFormats
import BluMach.ShiftAdd
import BluMach.SignedWords
import BluMach.LongDivision
import BluMach.Cpu808xMulDiv
import BluMach.Cpu808xMulLaws
import BluMach.Cpu808xDivLaws
import BluMach.Cpu808xMulDivLaws
import BluMach.MartyDiv
import BluMach.MartyDivLaws
import BluMach.CountedLoop
import BluMach.DmaLegacy
import BluMach.DmaLegacyLaws
import BluMach.DmaBlocks
import BluMach.DmaScatter
import BluMach.Observers
import BluMach.PitFastTimer
import BluMach.PitFastLatches
import BluMach.PitFastObserved
import BluMach.Utf8Text
import BluMach.LineReader
import BluMach.Ini
import BluMach.IniLaws
import BluMach.IniFiles
import BluMach.IniWritten
import BluMach.IniRoundTrip
import BluMach.FixedPoint
import BluMach.TimerDrift
import BluMach.ExchangeSort
import BluMach.IniSort
import BluMach.BankedMemory
import BluMach.T3200Lim
import BluMach.Gregorian
import BluMach.Nvr
import BluMach.NvrCalendar
import BluMach.NvrAt
import BluMach.NvrAtUpdate
import BluMach.NvrAtIrq
import BluMach.NvrAtTime
import BluMach.CdromImageCcd
import BluMach.CdromImageCcdEnd
import BluMach.DictionaryCoding
import BluMach.Lzw
import BluMach.LzwLaws
import BluMach.Buffers
import BluMach.Lzf
import BluMach.LzfLaws
import BluMach.SiblingTree
import BluMach.SiblingBuild
import BluMach.Td0
import BluMach.Td0Tree
import BluMach.Td0Bits
import BluMach.Td0Codes
import BluMach.Td0Distances
import BluMach.Td0Text
import BluMach.ByteFile
import BluMach.Minivhd
import BluMach.MinivhdLayout
import BluMach.MinivhdBlocks
import BluMach.MinivhdSectors
import BluMach.MinivhdChain
import BluMach.MinivhdRuns
