import SP2022.Runs
import SP2022.Termination
import SP2022.Reduction
import SP2022.Programs
import SP2022.ArrayQueue
import SP2022.Scheduler
import SP2022.SchedulerQueues
import SP2022.SchedulerInvariant
import SP2022.SchedulerHangup
import SP2022.SchedulerRounds
import SP2022.Threads
import SP2022.ThreadTracking
import SP2022.ThreadProgress
import SP2022.ThreadIsolation
import SP2022.ThreadCounts
import SP2022.SegmentSums
import SP2022.ThreadSums
import SP2022.ThreadNumbers
import SP2022.ThreadCompletion
import SP2022.SchedulerFairness
import SP2022.Booking
import SP2022.BookingTable
import SP2022.BookingWorld
import SP2022.BookingLimits
import SP2022.BookingNumbers
import SP2022.BookingInput
import SP2022.BookingFraming
import SP2022.BookingAtomic
import SP2022.BookingRecord
import SP2022.BookingCalls
import SP2022.BookingGate
import SP2022.BookingPrograms
import SP2022.BookingBlocks
import SP2022.BookingReduction
import SP2022.BookingServers
import SP2022.BookingDialogues
import SP2022.Merging
import SP2022.Movies
import SP2022.MoviesRanking
import SP2022.MoviesSuffix
import SP2022.MoviesMemory
import SP2022.MoviesBuilds
import SP2022.MoviesPaths
import SP2022.MoviesSafety
import SP2022.MoviesRequests
import SP2022.MoviesLoader
import SP2022.MoviesInput
import SP2022.MoviesThreads
import SP2022.MoviesServer
import SP2022.Network
import SP2022.NetworkRuns
import SP2022.NetworkLogs
import SP2022.Championship
import SP2022.ChampionshipBattle
import SP2022.ChampionshipPipes
import SP2022.ChampionshipRelay
import SP2022.ChampionshipRounds
import SP2022.ChampionshipBoot
import SP2022.ChampionshipTournament
import SP2022.ChampionshipSchedule
import SP2022.ChampionshipLog
import SP2022.ChampionshipNames
import SP2022.ChampionshipFiling
import SP2022.ChampionshipLogFile
import SP2022.ChampionshipLogRace
import SP2022.ChampionshipVariables
import SP2022.ChampionshipEnds
import SP2022.ChampionshipPassing
import SP2022.ChampionshipElimination
import SP2022.ChampionshipDuel
import SP2022.ChampionshipFile
import SP2022.ChampionshipMemory
