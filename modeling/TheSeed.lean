import TheSeed.Library.Bytes
import TheSeed.Library.Checked
import TheSeed.Library.Transition
import TheSeed.Library.SingleFlight
import TheSeed.Library.LinkedChain
import TheSeed.Library.SortedBy
import TheSeed.BoundedBytes
import TheSeed.PagedFile
import TheSeed.PagedViews
import TheSeed.PeSigner
import TheSeed.PeShape
import TheSeed.PeEffects
import TheSeed.PeFingerprint
import TheSeed.PeHistory
import TheSeed.PeCoverage
import TheSeed.PeRoundTrip
import TheSeed.PeChecksum
import TheSeed.FileReplace
import TheSeed.FileReplaceRuns
import TheSeed.FileWriteLoop
import TheSeed.PluginCache
import TheSeed.PluginCacheRuns
import TheSeed.PluginCacheLocations
import TheSeed.CfbReader
import TheSeed.CfbResolve
import TheSeed.MsiAuthenticode
import TheSeed.CfbWriter
import TheSeed.CfbHeader
import TheSeed.Library.Climb
import TheSeed.CfbAllocation
import TheSeed.CfbNarrowing
import TheSeed.CfbRuns
import TheSeed.CfbLinks
import TheSeed.CfbSearch
import TheSeed.DigestEncoding
import TheSeed.CfbNames
import TheSeed.CfbContent
import TheSeed.CfbJoint
import TheSeed.CfbAnyOrder
import TheSeed.MsiFingerprint
import TheSeed.CfbFlatten
import TheSeed.CfbSlots
import TheSeed.CfbRegions
import TheSeed.CfbReadBack
import TheSeed.CfbReadTree
import TheSeed.CfbOutputTree
import TheSeed.CfbOutputStreams
import TheSeed.CfbOutputRoom
import TheSeed.CfbOutputCheck
import TheSeed.CfbComplete
import TheSeed.CfbTally
import TheSeed.CfbExact
import TheSeed.MsiProgress
import TheSeed.CfbStreams
import TheSeed.CfbTree
import TheSeed.CfbDirectory
import TheSeed.CfbSelfCheck
import TheSeed.CfbSameBytes
import TheSeed.CfbCanonical
import TheSeed.MsiSigner
import TheSeed.MsiSignerRuns
import TheSeed.MsiHistory
import TheSeed.MsiQueries
import TheSeed.MachOLayout
import TheSeed.MachOCommands
import TheSeed.MachOProgram
import TheSeed.MachOSigner
import TheSeed.Library.Pieces
import TheSeed.MachOEdits
import TheSeed.MachOLinks
import TheSeed.MachOPlan
import TheSeed.MachOStrip
import TheSeed.MachOUniversal
import TheSeed.MachOContainers
import TheSeed.MachOTable
import TheSeed.MachORebuilt
import TheSeed.MachORepeated
import TheSeed.MachOReassembly
import TheSeed.MachOConsistent
import TheSeed.MachOSuperBlob
import TheSeed.MachODirectory
import TheSeed.MachOForms
import TheSeed.MachOPreserved
import TheSeed.MachOFiles
import TheSeed.MachOUndone
import TheSeed.MachOFingerprint
import TheSeed.MachOCoverage
import TheSeed.MachOAccepted
import TheSeed.MachOHistory
import TheSeed.MachOParser
import TheSeed.PakLoader
import TheSeed.PakLoaderRuns
import TheSeed.PakDescription
import TheSeed.PakFormat
import TheSeed.PakRequest
import TheSeed.ResourcePak
import TheSeed.ResourcePakRuns
import TheSeed.JSONLoader
import TheSeed.JSONLoaderExact
import TheSeed.PluginName
import TheSeed.Library.ByteOrder
import TheSeed.Library.Worklist
import TheSeed.Library.Sha256
import TheSeed.PicoSha2
import TheSeed.PicoSha2Exact
import TheSeed.SharedFiles
import TheSeed.SharedFilesRuns
import TheSeed.DependencyRequest
import TheSeed.DependencyNeeds
import TheSeed.DependencyBounds
import TheSeed.DependencySearch
import TheSeed.DependencyOrder
import TheSeed.DependencyCredits
import TheSeed.DependencyReads
import TheSeed.ByteSwap
import TheSeed.BoundedNames
import TheSeed.ElfParser
import TheSeed.ElfDependencies
import TheSeed.DependencyLister
import TheSeed.PeParser
import TheSeed.PeDependencies
import TheSeed.DependencyFormats
import TheSeed.SignatureQueries
import TheSeed.SharedFilesSigners
